import Libdsys.Dsys.Atomic

/-!
# Dsys/Task — programs as trees of calls

A task makes a call and goes on with what it leaves, until it has a result or reads where it must
not.  It is a program whose state is what is left of it.

* `answered_eq` — a pipe and a collection leave the blocks one behind the other.
* `reaches_round` — some processes put, and some get all that was put.
* `reaches_send` / `reaches_gather` — one puts and its consumers get, or its producers put and one
  gets.
-/

open Machinery

namespace Libdsys

variable {P R S : Type}

/-- What a process does, up to a result. -/
inductive Task (R : Type)
  | done (r : R)
  | fault
  | call (c : Call) (next : ℤ × List Byte → Task R)

namespace Task

/-- One task after another. -/
def bind : Task R → (R → Task S) → Task S
  | done r, f => f r
  | fault, _ => fault
  | call c next, f => call c fun out => (next out).bind f

instance : Monad Task where
  pure := done
  bind := bind

theorem bind_assoc {T : Type} (m : Task R) (f : R → Task S) (g : S → Task T) :
    (m.bind f).bind g = m.bind fun r => (f r).bind g := by
  induction m with
  | done | fault => rfl
  | call c next ih => exact congrArg (call c) (funext ih)

@[simp] theorem bind_done (m : Task R) : m.bind done = m := by
  induction m with
  | done | fault => rfl
  | call c next ih => exact congrArg (call c) (funext ih)

/-- A value that may be missing. -/
def ofOption : Option R → Task R
  | some r => done r
  | none => fault

/-- `bc_put(sink, local, du)`, whatever it returns. -/
def put (c : ℕ) (loc : List Byte) (du : ℤ) : Task Unit :=
  call (.put (.sink c) (some loc) du) fun _ => done ()

/-- `bc_get(src, local, du)`, whatever it returns: what `local` is then. -/
def get (j : ℕ) (loc : List Byte) (du : ℤ) : Task (List Byte) :=
  call (.get (.src j) (some loc) du) fun out => done out.2

/-- **The program of a task.** -/
def program : Program (Task R) where
  call
    | done _ | fault => none
    | call c _ => some c
  resume
    | done r, _ => done r
    | fault, _ => fault
    | call _ next, out => next out

end Task

variable [DecidableEq P]

/-! ## What a get leaves -/

/-- The roles in which a get leaves the blocks one behind the other. -/
def Role.Lists (role : Role) : Prop := role = .pipe ∨ role = .collect

section Lists

variable {A : Arith} {conf : Conf P} {q : P} {src : Src P} {bufs : List (Buf P)} {loc : List Byte}
  {du : ℕ} {blocks : List (List Byte)}

omit [DecidableEq P] in
theorem exists_r_of_lists (h : src.role.Lists) : ∃ r, src.role.r (P := P) A = some r := by
  obtain h | h := h <;> exact ⟨_, by rw [h]; rfl⟩

/-- **What a get gets that only lists.** -/
theorem answer_lists (h : src.role.Lists) {r} (hr : src.role.r A = some r)
    (hone : src.role = .pipe ∨ src.role = .pipen → src.links.length = 1)
    (hroom : src.links.length * sizeMul src.dtype.bytes du ≤ loc.length)
    (hlength : blocks.length = src.links.length)
    (hblocks : ∀ bs ∈ blocks, bs.length = sizeMul src.dtype.bytes du) :
    (r src loc du).answer (sent src.links blocks) = some ((0, blocks.flatten ++
      loc.drop (src.links.length * sizeMul src.dtype.bytes du)), []) := by
  obtain ⟨role, links, dtype⟩ := src
  set sz := sizeMul dtype.bytes du with hsz
  obtain hrole | hrole := h <;> change role = _ at hrole <;> subst hrole <;>
    obtain rfl := Option.some.inj hr
  · obtain ⟨x, rfl⟩ := List.length_eq_one_iff.mp (hone (.inl rfl))
    obtain ⟨bs, rfl⟩ := List.length_eq_one_iff.mp hlength
    have hbs : bs.length = sz := hblocks bs List.mem_cons_self
    have hstore : writeAt loc 0 bs = some (bs ++ loc.drop sz) := by
      have hlen : 0 + bs.length ≤ loc.length := by
        simpa [hbs] using hroom
      rw [writeAt_eq_some hlen, overlay, List.take_zero, List.nil_append, Nat.zero_add, hbs]
    have hread := answer_bind_of (answer_readData x.1 bs [])
      fun out => (store loc 0 out).bind fun loc => Micro.done ((0 : ℤ), loc)
    rw [hbs] at hread
    refine Eq.trans hread ?_
    refine (answer_bind_of (answer_ofOption hstore _) _).trans ?_
    simp [Micro.answer]
  · have heach : (readEach sz links 0 ([] ++ loc.take (links.length * sz) ++
        loc.drop (links.length * sz))).answer (sent links blocks) =
        some ([] ++ blocks.flatten ++ loc.drop (links.length * sz), []) :=
      answer_readEach [] _ hlength.symm hblocks (List.length_take_of_le hroom)
    rw [List.nil_append, List.nil_append, List.take_append_drop] at heach
    refine Eq.trans (answer_bind_of (answer_requestAll du links _) _) ?_
    refine Eq.trans (answer_bind_of heach _) ?_
    rfl

/-- **Such a get goes through** where it finds its ring buffers and its buffer is large enough. -/
theorem serves_lists (h : src.role.Lists) {r} (hr : src.role.r A = some r)
    (hone : src.role = .pipe → src.links.length = 1)
    (hfound : src.links.map (conf.bufOf q) = bufs.map some) (hnodup : bufs.Nodup)
    (hroom : src.links.length * sizeMul src.dtype.bytes du ≤ loc.length) :
    conf.Serves q src r bufs loc du where
  found := hfound
  nodup := hnodup
  one hrole := by
    obtain hpipe | hpipen := hrole
    · exact hone hpipe
    · obtain h | h := h <;> exact absurd (hpipen.symm.trans h) (by decide)
  room blocks hlength hblocks := by
    have hone' : src.role = .pipe ∨ src.role = .pipen → src.links.length = 1 := by
      rintro (hpipe | hpipen)
      · exact hone hpipe
      · obtain h | h := h <;> exact absurd (hpipen.symm.trans h) (by decide)
    exact ⟨_, answer_lists h hr hone' hroom hlength hblocks⟩

/-- **What it leaves.** -/
theorem answered_eq (h : src.role.Lists) {r} (hr : src.role.r A = some r)
    (hserves : conf.Serves q src r bufs loc du)
    (hroom : src.links.length * sizeMul src.dtype.bytes du ≤ loc.length)
    (hlength : blocks.length = src.links.length)
    (hblocks : ∀ bs ∈ blocks, bs.length = sizeMul src.dtype.bytes du) :
    (answered src r loc du blocks).2 =
      blocks.flatten ++ loc.drop (src.links.length * sizeMul src.dtype.bytes du) := by
  rw [answered, answer_lists h hr hserves.one hroom hlength hblocks]
  rfl

end Lists

/-! ## Rounds -/

/-- A put of `du` units from `loc` on channel `c`, which is `ch`. -/
structure Putting (P : Type) where
  c : ℕ
  ch : SinkChan P
  loc : List Byte
  du : ℤ

/-- A get of `du` units to `loc` from source `j`, which is `src` and reads `bufs`. -/
structure Getting (P : Type) where
  j : ℕ
  src : Src P
  bufs : List (Buf P)
  loc : List Byte
  du : ℤ

namespace Putting

/-- What it gives to a ring buffer. -/
def share (x : Putting P) (i : ℕ) : List Byte := x.ch.share i (x.loc, x.du.toNat)

/-- How much that is. -/
def size (x : Putting P) : ℕ := sizeMul x.ch.dtype.bytes x.du.toNat

/-- The ring buffers it writes. -/
def Writes (x : Putting P) (p : P) (k : Buf P) : Prop := k.1 = p ∧ k.2.1 = x.c ∧ k.2.2 < x.ch.width

end Putting

/-- How much a get takes from a ring buffer. -/
def Getting.size (y : Getting P) : ℕ := sizeMul y.src.dtype.bytes y.du.toNat

/-- A process at a put that goes through, and what it does then. -/
structure AtPut (conf : Conf P) (p : P) (st : Task R) (x : Putting P) (next : Task R) : Prop where
  state : st = (Task.put x.c x.loc x.du).bind fun _ => next
  chan : (conf.chans p).sinks[x.c]? = some x.ch
  rings : x.ch.Rings
  holds : x.ch.Holds (x.loc, x.du.toNat)
  fits : x.size ≤ unitsSize x.ch.dunits x.ch.dtype.bytes
  pos : 1 ≤ x.du

/-- A process at a get from a pipe or of a collection, and what it does with what it gets. -/
structure AtGet (conf : Conf P) (q : P) (st : Task R) (y : Getting P) (next : List Byte → Task R) :
    Prop where
  state : st = (Task.get y.j y.loc y.du).bind next
  chan : (conf.chans q).srcs[y.j]? = some y.src
  lists : y.src.role.Lists
  one : y.src.role = .pipe → y.src.links.length = 1
  found : y.src.links.map (conf.bufOf q) = y.bufs.map some
  nodup : y.bufs.Nodup
  room : y.src.links.length * y.size ≤ y.loc.length
  pos : 1 ≤ y.du

section Rounds

variable {A : Arith} {conf : Conf P} {p q : P} {st : Task R} {x : Putting P} {y : Getting P}

theorem AtPut.prog {next : Task R} (h : AtPut conf p st x next) :
    (conf.exchanges A fun _ => Task.program).prog p st =
      some (putExchange p x.c x.ch (x.loc, x.du.toNat) next) := by
  obtain ⟨rfl, hch, hrings, hholds, -, hdu⟩ := h
  have hput : Conf.IsExchange A conf (fun _ => Task.program) p
      ((Task.put x.c x.loc x.du).bind fun _ => next)
      (putExchange p x.c x.ch (x.loc, x.du.toNat) next) := .put rfl hch hrings hholds hdu
  exact Conf.exchange_eq_some.mpr hput

omit [DecidableEq P] in
theorem AtPut.length_share {next : Task R} (h : AtPut conf p st x next) {i : ℕ}
    (hi : i < x.ch.width) : (x.share i).length = x.size := by
  obtain ⟨c, ⟨role, plist, dtype, dunits⟩, loc, du⟩ := x
  have hholds := h.holds
  obtain hrole | ⟨hrole | hrole, -⟩ := h.rings <;> change role = _ at hrole <;> subst hrole
  · exact List.length_take_of_le hholds
  · exact List.length_take_of_le hholds
  · have hi : i < plist.length := hi
    have hle : (i + 1) * sizeMul dtype.bytes du.toNat ≤ loc.length :=
      (Nat.mul_le_mul_right _ hi).trans hholds
    rw [Nat.succ_mul] at hle
    have hdrop : (loc.drop (i * sizeMul dtype.bytes du.toNat)).length =
        loc.length - i * sizeMul dtype.bytes du.toNat := List.length_drop
    exact List.length_take_of_le (hdrop ▸ Nat.le_sub_of_add_le (by rwa [Nat.add_comm]))

/-- What a get that goes through does. -/
structure Gets (x : Exchange (Buf P) Byte (Task R)) (y : Getting P) (next : List Byte → Task R) :
    Prop where
  take : ∀ k, x.take k = if k ∈ y.bufs then y.size else 0
  give : ∀ k, x.give k = []
  result : ∀ chan : Buf P → List Byte, (∀ k ∈ y.bufs, y.size ≤ (chan k).length) →
    x.result chan =
      next ((y.bufs.flatMap fun k => (chan k).take y.size) ++ y.loc.drop (y.bufs.length * y.size))

theorem AtGet.exists_prog {next : List Byte → Task R} (h : AtGet conf q st y next) :
    ∃ x, (conf.exchanges A fun _ => Task.program).prog q st = some x ∧ Gets x y next := by
  obtain ⟨j, src, bufs, loc, du⟩ := y
  obtain ⟨rfl, hsrc, hlists, hone, hfound, hnodup, hroom, hdu⟩ := h
  obtain ⟨r, hr⟩ := exists_r_of_lists (A := A) hlists
  have hserves : conf.Serves q src r bufs loc du.toNat :=
    serves_lists hlists hr hone hfound hnodup hroom
  have hlen : src.links.length = bufs.length := by
    simpa using congrArg List.length hfound
  have hget : Conf.IsExchange A conf (fun _ => Task.program) q ((Task.get j loc du).bind next)
      (getExchange bufs (sizeMul src.dtype.bytes du.toNat) fun blocks =>
        next (answered src r loc du.toNat blocks).2) := .get rfl hsrc hr hserves hdu
  refine ⟨_, Conf.exchange_eq_some.mpr hget, fun k => rfl, fun k => rfl, fun chan hthere => ?_⟩
  rw [Getting.size] at hroom hthere ⊢
  dsimp only at hroom hthere ⊢
  set n := sizeMul src.dtype.bytes du.toNat with hn
  have hblocks : bufs.map (fun k => (chan k).take (if k ∈ bufs then n else 0)) =
      bufs.map fun k => (chan k).take n :=
    List.map_congr_left fun k hk => by rw [if_pos hk]
  change next (answered src r loc du.toNat
    (bufs.map fun k => (chan k).take (if k ∈ bufs then n else 0))).2 = _
  rw [hblocks, answered_eq hlists hr hserves hroom (by rw [List.length_map, hlen]), hlen,
    List.flatMap_def]
  intro bs hbs
  obtain ⟨k, hk, rfl⟩ := List.mem_map.mp hbs
  exact List.length_take_of_le (hthere k hk)

open Classical in
/-- What the ring buffers hold after some puts. -/
noncomputable def held (as : List P) (x : P → Putting P) (k : Buf P) : List Byte :=
  if k.1 ∈ as ∧ (x k.1).Writes k.1 k then (x k.1).share k.2.2 else []

section Held

variable {loc mid : P → Task R} {as bs : List P} {x : P → Putting P}
  (hput : ∀ p ∈ as, AtPut conf p (loc p) (x p) (mid p))
include hput

theorem length_held {k : Buf P} (hk : k.1 ∈ as ∧ (x k.1).Writes k.1 k) :
    (held as x k).length = (x k.1).size := by
  rw [held, if_pos hk, (hput k.1 hk.1).length_share hk.2.2.2]

theorem held_le (k : Buf P) :
    ∀ n ∈ (conf.exchanges A fun _ => (Task.program : Program (Task R))).cap k,
    (held as x k).length ≤ n := by
  intro n hn
  by_cases hk : k.1 ∈ as ∧ (x k.1).Writes k.1 k
  · have hat := hput k.1 hk.1
    rw [length_held hput hk]
    simp only [Conf.exchanges, hk.2.2.1, hat.chan, Option.map_some, Option.mem_some_iff] at hn
    exact hn ▸ hat.fits
  · simp [held, if_neg hk]

/-- **Processes that are at puts make them together.** -/
theorem reaches_held (has : as.Nodup) (hmid : ∀ p ∉ as, mid p = loc p) :
    Reaches (conf.exchanges A fun _ => Task.program).step ⟨loc, fun _ => []⟩ ⟨mid, held as x⟩ := by
  classical
  set N := conf.exchanges A fun _ => (Task.program : Program (Task R)) with hN
  let puts (p : P) : Exchange (Buf P) Byte (Task R) :=
    putExchange p (x p).c (x p).ch ((x p).loc, (x p).du.toNat) (mid p)
  have hgive (p : P) (hp : p ∈ as) (k : Buf P) :
      (puts p).give k = if k.1 = p then held as x k else [] := by
    by_cases hk : k.1 = p
    · subst hk
      simp [puts, putExchange, held, Putting.Writes, Putting.share, hp]
    · simp [puts, putExchange, hk]
  have hputs := N.reaches_sync (s := ⟨loc, fun _ => []⟩) has (fun p hp => (hput p hp).prog)
    fun p hp => ⟨fun k => Nat.zero_le _, fun k n hn => by
      change (([] : List Byte).length + ((puts p).give k).length) ≤ n
      rw [hgive p hp, List.length_nil, Nat.zero_add]
      split
      · exact held_le hput k n hn
      · exact Nat.zero_le _⟩
  have hafter : N.sync puts as ⟨loc, fun _ => []⟩ = ⟨mid, held as x⟩ := by
    refine congrArg₂ ExchangeState.mk (funext fun p => ?_) (funext fun k => ?_)
    · by_cases hp : p ∈ as
      · exact if_pos hp
      · exact (if_neg hp).trans (hmid p hp).symm
    · change (([] : List Byte).drop _ ++ if k.1 ∈ as then (puts k.1).give k else []) = _
      rw [List.drop_nil, List.nil_append]
      by_cases hk : k.1 ∈ as
      · rw [if_pos hk, hgive _ hk, if_pos rfl]
      · rw [if_neg hk, held, if_neg fun h => hk h.1]
  exact hafter ▸ hputs

end Held

/-- **A round**: some processes put, and some get all that was put. -/
theorem reaches_round {loc mid : P → Task R} {as bs : List P} (has : as.Nodup) (hbs : bs.Nodup)
    {x : P → Putting P} (hput : ∀ p ∈ as, AtPut conf p (loc p) (x p) (mid p))
    (hmid : ∀ p ∉ as, mid p = loc p) {y : P → Getting P} {next : P → List Byte → Task R}
    (hget : ∀ q ∈ bs, AtGet conf q (mid q) (y q) (next q))
    (hsent : ∀ p ∈ as, ∀ i < (x p).ch.width, ∃ q ∈ bs, (p, (x p).c, i) ∈ (y q).bufs)
    (hgot : ∀ q ∈ bs, ∀ k ∈ (y q).bufs,
      k.1 ∈ as ∧ (x k.1).Writes k.1 k ∧ (y q).size = (x k.1).size) :
    Reaches (conf.exchanges A fun _ => Task.program).step ⟨loc, fun _ => []⟩
      ⟨fun q => if q ∈ bs then next q ((y q).bufs.flatMap (fun k => (x k.1).share k.2.2) ++
        (y q).loc.drop ((y q).bufs.length * (y q).size)) else mid q, fun _ => []⟩ := by
  set N := conf.exchanges A fun _ => (Task.program : Program (Task R)) with hN
  have hgets (q : P) : ∃ e, q ∈ bs → N.prog q (mid q) = some e ∧ Gets e (y q) (next q) := by
    by_cases hq : q ∈ bs
    · obtain ⟨e, he⟩ := (hget q hq).exists_prog (A := A)
      exact ⟨e, fun _ => he⟩
    · exact ⟨⟨fun _ => 0, fun _ => [], fun _ => mid q⟩, fun h => absurd h hq⟩
  choose e he using hgets
  have hthere (q : P) (hq : q ∈ bs) (k : Buf P) (hk : k ∈ (y q).bufs) :
      (y q).size = (held as x k).length := by
    obtain ⟨hkas, hwrites, hsize⟩ := hgot q hq k hk
    rw [hsize, length_held hput ⟨hkas, hwrites⟩]
  have hreach := N.reaches_sync (s := ⟨mid, held as x⟩) hbs (fun q hq => (he q hq).1)
    fun q hq => ⟨fun k => by
      rw [(he q hq).2.take]
      split
      · next hk => exact (hthere q hq k hk).le
      · exact Nat.zero_le _, fun k n hn => by
      rw [(he q hq).2.give, List.length_nil, Nat.add_zero]
      exact held_le hput k n hn⟩
  refine (reaches_held hput has hmid).trans ?_
  convert hreach using 1
  refine congrArg₂ ExchangeState.mk (funext fun q => ?_) (funext fun k => ?_)
  · by_cases hq : q ∈ bs
    · have hresult := (he q hq).2.result (held as x) fun k hk => (hthere q hq k hk).le
      have hshare : (y q).bufs.flatMap (fun k => (held as x k).take (y q).size) =
          (y q).bufs.flatMap fun k => (x k.1).share k.2.2 := by
        rw [List.flatMap_def, List.flatMap_def]
        refine congrArg List.flatten (List.map_congr_left fun k hk => ?_)
        obtain ⟨hkas, hwrites, -⟩ := hgot q hq k hk
        rw [List.take_of_length_le (hthere q hq k hk).ge, held, if_pos ⟨hkas, hwrites⟩]
      rw [hshare] at hresult
      simp only [hq, if_true, hresult]
    · simp [hq]
  · have hgive : (if N.writer k ∈ bs then (e (N.writer k)).give k else []) = [] := by
      split
      · next hw => exact (he _ hw).2.give k
      · rfl
    rw [hgive, List.append_nil]
    refine (List.drop_eq_nil_of_le ?_).symm
    by_cases hk : k.1 ∈ as ∧ (x k.1).Writes k.1 k
    · obtain ⟨p, c, i⟩ := k
      obtain ⟨hp, -, hc, hi⟩ := hk
      obtain rfl : c = (x p).c := hc
      obtain ⟨q, hq, hmem⟩ := hsent p hp i hi
      have htake : (e q).take (p, (x p).c, i) = (held as x (p, (x p).c, i)).length := by
        rw [(he q hq).2.take, if_pos hmem, hthere q hq _ hmem]
      by_cases hzero : (held as x (p, (x p).c, i)).length = 0
      · rw [hzero]
        exact Nat.zero_le _
      · rw [N.take_reader (he q hq).1 (htake ▸ hzero), if_pos hq, htake]
    · simp [held, if_neg hk]

/-- **One process puts**, and all its consumers get their shares. -/
theorem reaches_send {loc : P → Task R} {mid : Task R} {y : P → Getting P}
    {next : P → List Byte → Task R} (hput : AtPut conf p (loc p) x mid)
    (hapart : p ∉ x.ch.plist) (hnodup : x.ch.plist.Nodup)
    (hone : x.ch.role = .pipe → x.ch.plist.length = 1)
    (hget : ∀ q ∈ x.ch.plist, AtGet conf q (loc q) (y q) (next q) ∧
      (y q).bufs = [(p, x.c, Conf.node x.ch q)] ∧ (y q).size = x.size) :
    Reaches (conf.exchanges A fun _ => Task.program).step ⟨loc, fun _ => []⟩
      ⟨fun q => if q ∈ x.ch.plist then
          next q (x.share (Conf.node x.ch q) ++ (y q).loc.drop x.size)
        else if q = p then mid else loc q, fun _ => []⟩ := by
  have hmid (q : P) (hq : q ≠ p) : (if q = p then mid else loc q) = loc q := if_neg hq
  have hne {q : P} (hq : q ∈ x.ch.plist) : q ≠ p := fun heq => hapart (heq ▸ hq)
  have hnode {i : ℕ} (hi : i < x.ch.width) : ∃ q ∈ x.ch.plist, Conf.node x.ch q = i := by
    obtain ⟨c, ⟨role, plist, dtype, dunits⟩, out, du⟩ := x
    obtain hrole | ⟨hrole | hrole, -⟩ := hput.rings <;> change role = _ at hrole <;> subst hrole
    · obtain ⟨q, hq⟩ := List.length_eq_one_iff.mp (hone rfl)
      obtain rfl : i = 0 := Nat.lt_one_iff.mp hi
      exact ⟨q, by rw [hq]; exact List.mem_singleton_self q, rfl⟩
    all_goals
      have hi : i < plist.length := hi
      exact ⟨plist[i], List.getElem_mem hi, hnodup.idxOf_getElem i hi⟩
  have hwidth {q : P} (hq : q ∈ x.ch.plist) : Conf.node x.ch q < x.ch.width := by
    obtain ⟨c, ⟨role, plist, dtype, dunits⟩, out, du⟩ := x
    obtain hrole | ⟨hrole | hrole, -⟩ := hput.rings <;> change role = _ at hrole <;> subst hrole
    · exact Nat.one_pos
    all_goals exact List.idxOf_lt_length_of_mem hq
  have hround := reaches_round (A := A) (x := fun _ => x) (y := y) (List.nodup_singleton p) hnodup
    (fun p' hp' => by
      obtain rfl := List.mem_singleton.mp hp'
      exact (if_pos rfl : (if p' = p' then mid else loc p') = mid).symm ▸ hput)
    (fun q hq => hmid q fun heq => hq (List.mem_singleton.mpr heq))
    (fun q hq => (hmid q (hne hq)).symm ▸ (hget q hq).1)
    (fun p' hp' i hi => by
      obtain rfl := List.mem_singleton.mp hp'
      obtain ⟨q, hq, rfl⟩ := hnode hi
      exact ⟨q, hq, (hget q hq).2.1 ▸ List.mem_singleton_self _⟩)
    fun q hq k hk => by
      rw [(hget q hq).2.1] at hk
      obtain rfl := List.mem_singleton.mp hk
      exact ⟨List.mem_singleton_self p, ⟨rfl, rfl, hwidth hq⟩, (hget q hq).2.2⟩
  convert hround using 2
  funext q
  by_cases hq : q ∈ x.ch.plist
  · rw [if_pos hq, if_pos hq, (hget q hq).2.1, (hget q hq).2.2]
    simp
  · rw [if_neg hq, if_neg hq]

/-- **One process collects** what each of its producers puts. -/
theorem reaches_gather {loc mid : P → Task R} {x : P → Putting P} {next : List Byte → Task R}
    {prod : List P} (hget : AtGet conf q (loc q) y next) (hapart : q ∉ prod) (hnodup : prod.Nodup)
    (hput : ∀ p ∈ prod, AtPut conf p (loc p) (x p) (mid p) ∧ (x p).ch.role = .pipe ∧
      y.size = (x p).size) (hbufs : y.bufs = prod.map fun p => (p, (x p).c, 0)) :
    Reaches (conf.exchanges A fun _ => Task.program).step ⟨loc, fun _ => []⟩
      ⟨fun p => if p = q then next ((prod.flatMap fun p => (x p).share 0) ++
          y.loc.drop (prod.length * y.size))
        else if p ∈ prod then mid p else loc p, fun _ => []⟩ := by
  have hone {p : P} (hp : p ∈ prod) : (x p).ch.width = 1 := by
    rw [SinkChan.width, (hput p hp).2.1]
  have hgets : ∀ q' ∈ [q], AtGet conf q' (if q' ∈ prod then mid q' else loc q')
      ((fun _ => y) q') ((fun _ => next) q') := by
    intro q' hq'
    obtain rfl := List.mem_singleton.mp hq'
    exact (if_neg hapart : (if q' ∈ prod then mid q' else loc q') = loc q').symm ▸ hget
  have hround := reaches_round (A := A) hnodup (List.nodup_singleton q) (x := x)
    (fun p hp => (if_pos hp : (if p ∈ prod then mid p else loc p) = mid p).symm ▸ (hput p hp).1)
    (fun p hp => if_neg hp) hgets
    (fun p hp i hi => by
      rw [hone hp, Nat.lt_one_iff] at hi
      exact ⟨q, List.mem_singleton_self q, hbufs ▸ List.mem_map.mpr ⟨p, hp, by rw [hi]⟩⟩)
    fun _ _ k hk => by
      rw [hbufs] at hk
      obtain ⟨p, hp, rfl⟩ := List.mem_map.mp hk
      exact ⟨hp, ⟨rfl, rfl, by rw [hone hp]; exact Nat.one_pos⟩, (hput p hp).2.2⟩
  convert hround using 2
  funext p
  by_cases hp : p = q
  · subst hp
    rw [if_pos rfl, if_pos (List.mem_singleton_self p), hbufs, List.length_map, List.flatMap_map]
  · rw [if_neg hp, if_neg fun h => hp (List.mem_singleton.mp h)]

end Rounds

end Libdsys
