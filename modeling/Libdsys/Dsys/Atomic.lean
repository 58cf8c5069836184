import Libdsys.Branch.Answer
import Libdsys.Dsys.Termination
import Libdsys.Machinery.Exchange

/-!
# Dsys/Atomic — calls may be taken as atomic

A put is a loop over ring buffers, and a get is a request, a service thread that takes it and
answers, and a read.  For a program they are exchanges: a put gives each ring buffer its share at
once, and a get takes from those of its producers at once.

* `Conf.exchanges` — the programs of a system, with calls that are exchanges.
* `Conf.reaches_net` — every run of these is a run of the net of the system.
* `Conf.allEnd_of_exchanges` — so one run of them to its end tells how all runs of the system end.
-/

open Machinery

namespace Libdsys

variable {P σ : Type}

/-! ## Puts -/

namespace SinkChan

variable {ch : SinkChan P} {c j : ℕ} {x : List Byte × ℕ}

/-- **The buffer of a put is long enough.** -/
def Holds (ch : SinkChan P) (x : List Byte × ℕ) : Prop :=
  match ch.role with
  | .spread => ch.plist.length * sizeMul ch.dtype.bytes x.2 ≤ x.1.length
  | _ => sizeMul ch.dtype.bytes x.2 ≤ x.1.length

variable [DecidableEq P]

/-- Then a put that is not through is at its next ring buffer. -/
theorem Rings.rest_eq_put (h : ch.Rings) (hx : ch.Holds x) (hj : j < ch.width) :
    ch.rest c x j = .put c j (ch.share j x) (ch.rest c x (j + 1)) := by
  obtain ⟨role, plist, dtype, dunits⟩ := ch
  obtain ⟨loc, du⟩ := x
  obtain hrole | ⟨hrole | hrole, hnodup⟩ := h
  · obtain rfl := hrole
    obtain rfl : j = 0 := Nat.lt_one_iff.mp hj
    have hread : readAt loc 0 (sizeMul dtype.bytes du) = some (loc.take (sizeMul dtype.bytes du)) :=
      readAt_eq_some (by rw [Nat.zero_add]; exact hx)
    simp only [rest, pPipe, hread]
    rfl
  · obtain rfl := hrole
    have hlt : j < plist.length := hj
    have hidx : plist.idxOf plist[j] = j := hnodup.idxOf_getElem j hlt
    have hread : readAt loc 0 (sizeMul dtype.bytes du) = some (loc.take (sizeMul dtype.bytes du)) :=
      readAt_eq_some (by rw [Nat.zero_add]; exact hx)
    simp only [rest, List.drop_eq_getElem_cons hlt, replicateEach, hidx, hread]
    rfl
  · obtain rfl := hrole
    have hlt : j < plist.length := hj
    have hfits : (j + 1) * sizeMul dtype.bytes du ≤ loc.length :=
      (Nat.mul_le_mul_right _ hlt).trans hx
    have hread : readAt loc (j * sizeMul dtype.bytes du) (sizeMul dtype.bytes du) =
        some ((loc.drop (j * sizeMul dtype.bytes du)).take (sizeMul dtype.bytes du)) :=
      readAt_eq_some (by rw [← Nat.succ_mul]; exact hfits)
    simp only [rest, List.drop_eq_getElem_cons hlt, spreadEach, share, Nat.succ_mul, hread]
    rfl

end SinkChan

/-! ## Gets -/

/-- **A get asks every producer, and then reads.** -/
theorem exists_r_eq {A : Arith} {role : Role} {r} (hr : role.r (P := P) A = some r)
    (hany : role ≠ .collectAny) {src : Src P}
    (hone : role = .pipe ∨ role = .pipen → src.links.length = 1) (loc : List Byte) (du : ℕ) :
    ∃ rest, r src loc du = (requestAll du src.links).bind (fun _ => rest) ∧ rest.Reads [] := by
  have hpipe (hlen : src.links.length = 1) : ∃ rest,
      rPipe src loc du = (requestAll du src.links).bind (fun _ => rest) ∧ rest.Reads [] := by
    obtain ⟨x, hx⟩ := List.length_eq_one_iff.mp hlen
    refine ⟨(readData x.1 (sizeMul src.dtype.bytes du)).bind fun out =>
      (store loc 0 out).bind fun loc => .done (0, loc), ?_, ?_⟩
    · simp only [rPipe, hx, List.head?_cons]
      rfl
    · exact reads_bind (reads_readData _ _) fun _ => reads_bind (reads_ofOption _) fun _ => trivial
  cases role <;> simp only [Role.r, reduceCtorEq, Option.some.injEq] at hr <;> subst hr
  case pipe => exact hpipe (hone (.inl rfl))
  case pipen => exact hpipe (hone (.inr rfl))
  case reduceSum | reduceMul =>
    exact ⟨_, rfl, reads_bind (reads_ofOption _) fun _ =>
      reads_bind (reads_reduceEach _ _ _ _) fun _ => trivial⟩
  case reduceMax | reduceMin =>
    exact ⟨_, rfl, reads_bind (reads_ofOption _) fun _ =>
      reads_bind (reads_readData _ _) fun _ => reads_bind (reads_ofOption _) fun _ =>
        reads_bind (reads_reduceEach _ _ _ _) fun _ => trivial⟩
  case reduceMinmax =>
    exact ⟨_, rfl, reads_bind (reads_ofOption _) fun _ =>
      reads_bind (reads_readData _ _) fun _ => reads_bind (reads_ofOption _) fun _ =>
        reads_bind (reads_ofOption _) fun _ =>
          reads_bind (reads_reduceEach _ _ _ _) fun _ => trivial⟩
  case reduceOpt =>
    exact ⟨_, rfl, reads_bind (reads_readEach _ _ _ _) fun _ =>
      reads_bind (reads_ofOption _) fun _ => reads_bind (reads_ofOption _) fun _ => trivial⟩
  case collect => exact ⟨_, rfl, reads_bind (reads_readEach _ _ _ _) fun _ => trivial⟩
  case collectAny => exact absurd rfl hany

/-! ## Calls as exchanges -/

/-- A ring buffer: its process, the number of its channel there, and its own in the channel. -/
abbrev Buf (P : Type) := P × ℕ × ℕ

variable [DecidableEq P]

/-- The ring buffer that a link of a source of `q` leads to. -/
def Conf.bufOf (conf : Conf P) (q : P) (x : P × ℕ) : Option (Buf P) := do
  let link ← (conf.ltab x.1 q).find? (·.tag = x.2)
  let ch ← (conf.chans x.1).sinks[link.channel]?
  if conf.reader x.1 link.channel (Conf.node ch q) = some q then
    some (x.1, link.channel, Conf.node ch q)
  else none

/-- **A get that goes through**: its links lead to different ring buffers, and there is room for
what they hold. -/
structure Conf.Serves (conf : Conf P) (q : P) (src : Src P)
    (r : Src P → List Byte → ℕ → Micro P (ℤ × List Byte)) (bufs : List (Buf P)) (loc : List Byte)
    (du : ℕ) : Prop where
  found : src.links.map (conf.bufOf q) = bufs.map some
  nodup : bufs.Nodup
  one : src.role = .pipe ∨ src.role = .pipen → src.links.length = 1
  room : ∀ blocks : List (List Byte), blocks.length = src.links.length →
    (∀ bs ∈ blocks, bs.length = sizeMul src.dtype.bytes du) →
    ∃ out, (r src loc du).answer (sent src.links blocks) = some (out, [])

/-- What a call leaves, that got its answers. -/
def answered (src : Src P) (r : Src P → List Byte → ℕ → Micro P (ℤ × List Byte))
    (loc : List Byte) (du : ℕ) (blocks : List (List Byte)) : ℤ × List Byte :=
  (((r src loc du).answer (sent src.links blocks)).map Prod.fst).getD (0, loc)

/-- A put on channel `c` of `q`, after which the program is at `next`. -/
def putExchange (q : P) (c : ℕ) (ch : SinkChan P) (x : List Byte × ℕ) (next : σ) :
    Exchange (Buf P) Byte σ where
  take _ := 0
  give k := if k.1 = q ∧ k.2.1 = c ∧ k.2.2 < ch.width then ch.share k.2.2 x else []
  next _ := next

/-- A get of `n` bytes from each of some ring buffers. -/
def getExchange (bufs : List (Buf P)) (n : ℕ) (next : List (List Byte) → σ) :
    Exchange (Buf P) Byte σ where
  take k := if k ∈ bufs then n else 0
  give _ := []
  next got := next (bufs.map got)

namespace Conf

variable (A : Arith) (conf : Conf P) (prog : P → Program σ)

open Classical in
/-- What a program does next, as an exchange. -/
noncomputable def exchange (q : P) (st : σ) : Option (Exchange (Buf P) Byte σ) :=
  match (prog q).call st with
  | some (.put (.sink c) (some loc) du) => do
    let ch ← (conf.chans q).sinks[c]?
    if ch.Rings ∧ ch.Holds (loc, du.toNat) ∧ 1 ≤ du then
      some (putExchange q c ch (loc, du.toNat) ((prog q).resume st (0, loc)))
    else none
  | some (.get (.src j) (some loc) du) => do
    let src ← (conf.chans q).srcs[j]?
    let r ← src.role.r A
    let bufs := src.links.filterMap (conf.bufOf q)
    if conf.Serves q src r bufs loc du.toNat ∧ 1 ≤ du then
      some (getExchange bufs (sizeMul src.dtype.bytes du.toNat) fun blocks =>
        (prog q).resume st (answered src r loc du.toNat blocks))
    else none
  | _ => none

/-- **What an exchange of `q` is.** -/
inductive IsExchange (q : P) (st : σ) : Exchange (Buf P) Byte σ → Prop
  | put {c loc du ch} (hcall : (prog q).call st = some (.put (.sink c) (some loc) du))
    (hch : (conf.chans q).sinks[c]? = some ch) (hrings : ch.Rings)
    (hholds : ch.Holds (loc, du.toNat)) (hdu : 1 ≤ du) :
    IsExchange q st (putExchange q c ch (loc, du.toNat) ((prog q).resume st (0, loc)))
  | get {j loc du src r bufs} (hcall : (prog q).call st = some (.get (.src j) (some loc) du))
    (hsrc : (conf.chans q).srcs[j]? = some src) (hr : src.role.r A = some r)
    (hserves : conf.Serves q src r bufs loc du.toNat) (hdu : 1 ≤ du) :
    IsExchange q st (getExchange bufs (sizeMul src.dtype.bytes du.toNat) fun blocks =>
      (prog q).resume st (answered src r loc du.toNat blocks))

variable {A conf prog} {q : P} {st : σ} {x : Exchange (Buf P) Byte σ}

theorem Serves.filterMap_eq {src : Src P} {r} {bufs : List (Buf P)} {loc : List Byte} {du : ℕ}
    (h : conf.Serves q src r bufs loc du) : bufs = src.links.filterMap (conf.bufOf q) :=
  calc bufs = (bufs.map some).filterMap id := by simp [List.filterMap_map]
    _ = (src.links.map (conf.bufOf q)).filterMap id := by rw [h.found]
    _ = src.links.filterMap (conf.bufOf q) := by rw [List.filterMap_map, Function.id_comp]

theorem exchange_eq_some : conf.exchange A prog q st = some x ↔ IsExchange A conf prog q st x := by
  constructor
  · intro h
    rw [exchange] at h
    split at h
    · next c loc du hcall =>
      obtain ⟨ch, hch, h⟩ := Option.bind_eq_some_iff.mp h
      obtain ⟨⟨hrings, hholds, hdu⟩, h⟩ := Option.ite_none_right_eq_some.mp h
      obtain rfl := Option.some.inj h
      exact .put hcall hch hrings hholds hdu
    · next j loc du hcall =>
      obtain ⟨src, hsrc, h⟩ := Option.bind_eq_some_iff.mp h
      obtain ⟨r, hr, h⟩ := Option.bind_eq_some_iff.mp h
      obtain ⟨⟨hserves, hdu⟩, h⟩ := Option.ite_none_right_eq_some.mp h
      obtain rfl := Option.some.inj h
      exact .get hcall hsrc hr hserves hdu
    · cases h
  · intro h
    cases h with
    | put hcall hch hrings hholds hdu =>
      simp only [exchange, hcall, hch, Option.bind_eq_bind, Option.bind_some]
      exact if_pos ⟨hrings, hholds, hdu⟩
    | get hcall hsrc hr hserves hdu =>
      obtain rfl := hserves.filterMap_eq
      simp only [exchange, hcall, hsrc, hr, Option.bind_eq_bind, Option.bind_some]
      exact if_pos ⟨hserves, hdu⟩

theorem bufOf_eq_some {y : P × ℕ} {buf : Buf P} (h : conf.bufOf q y = some buf) :
    ∃ link ch, (conf.ltab y.1 q).find? (·.tag = y.2) = some link ∧
      (conf.chans y.1).sinks[link.channel]? = some ch ∧
      conf.reader y.1 link.channel (node ch q) = some q ∧ buf = (y.1, link.channel, node ch q) := by
  obtain ⟨link, hlink, h⟩ := Option.bind_eq_some_iff.mp h
  obtain ⟨ch, hch, h⟩ := Option.bind_eq_some_iff.mp h
  obtain ⟨hreader, h⟩ := Option.ite_none_right_eq_some.mp h
  exact ⟨link, ch, hlink, hch, hreader, (Option.some.inj h).symm⟩

/-- A ring buffer has one reader. -/
theorem Serves.reader {src : Src P} {r} {bufs : List (Buf P)} {loc : List Byte} {du : ℕ}
    (h : conf.Serves q src r bufs loc du) {k : Buf P} (hk : k ∈ bufs) :
    conf.reader k.1 k.2.1 k.2.2 = some q := by
  have hmem : some k ∈ src.links.map (conf.bufOf q) := by
    rw [h.found]
    exact List.mem_map_of_mem hk
  obtain ⟨y, -, hy⟩ := List.mem_map.mp hmem
  obtain ⟨link, ch, -, -, hreader, rfl⟩ := bufOf_eq_some hy
  exact hreader

variable (A conf prog) in
/-- **The programs of a system, with calls that are exchanges.** -/
noncomputable def exchanges : Exchanges P (Buf P) Byte σ where
  prog := conf.exchange A prog
  cap k := ((conf.chans k.1).sinks[k.2.1]?).map fun ch => unitsSize ch.dunits ch.dtype.bytes
  writer k := k.1
  reader k := (conf.reader k.1 k.2.1 k.2.2).getD k.1
  give_writer {q st x k} h hk := by
    cases exchange_eq_some.mp h with
    | put =>
      simp only [putExchange, ne_eq, ite_eq_right_iff, not_forall] at hk
      obtain ⟨⟨hq, -⟩, -⟩ := hk
      exact hq
    | get => exact absurd rfl hk
  take_reader {q st x k} h hk := by
    cases exchange_eq_some.mp h with
    | put => exact absurd rfl hk
    | get hcall hsrc hr hserves hdu =>
      simp only [getExchange, ne_eq, ite_eq_right_iff, not_forall] at hk
      obtain ⟨hmem, -⟩ := hk
      rw [hserves.reader hmem, Option.getD_some]

end Conf

/-! ## The net between calls -/

/-- **The net where nothing is under way** but data that was sent: what the computation threads are
at, what the ring buffers hold, and what was sent and is not read. -/
def calm (comp : P → Comp P σ) (ring : Buf P → List Byte) (data : P → P → List Byte) :
    KahnState (Wire.Msg P) (Agent.Local P σ) where
  loc
    | .comp q => comp q
    | .service _ _ => .idle
  chan
    | .ring p c i => ring (p, c, i)
    | .request _ _ => []
    | .data p q => data p q

section Calm

variable {A : Arith} {conf : Conf P} {prog : P → Program σ} {s₀ : Dsys P σ} {comp : P → Comp P σ}
  {ring : Buf P → List Byte} {data : P → P → List Byte} {q : P} {comp' : Comp P σ}

omit [DecidableEq P] in
theorem calm_congr {chan : (w : Wire P) → List (Wire.Msg P w)}
    {loc : (a : Agent P) → Agent.Local P σ a}
    (hcomp : ∀ q, loc (.comp q) = comp q) (hservice : ∀ p q, loc (.service p q) = .idle)
    (hring : ∀ p c i, chan (.ring p c i) = ring (p, c, i))
    (hrequest : ∀ q p, chan (.request q p) = []) (hdata : ∀ p q, chan (.data p q) = data p q) :
    (⟨loc, chan⟩ : KahnState (Wire.Msg P) (Agent.Local P σ)) = calm comp ring data := by
  refine congrArg₂ KahnState.mk (funext fun a => ?_) (funext fun w => ?_)
  · cases a with
    | comp q => exact hcomp q
    | service p q => exact hservice p q
  · cases w with
    | ring p c i => exact hring p c i
    | request q p => exact hrequest q p
    | data p q => exact hdata p q

/-- A computation thread of the net is somewhere else. -/
theorem update_comp (f : (a : Agent P) → Agent.Local P σ a) (q q' : P) (comp' : Comp P σ) :
    Function.update f (.comp q) comp' (.comp q') =
      if q' = q then comp' else f (.comp q') := by
  by_cases hq : q' = q
  · subst hq
    simp
  · have hne : Agent.comp q' ≠ .comp q := fun heq => hq (Agent.comp.inj heq)
    rw [Function.update_of_ne hne, if_neg hq]

variable (A conf prog s₀ comp ring data)

/-- A computation thread goes on by itself. -/
theorem calm_skip (hop : conf.compOp A prog q (comp q) = .skip comp') :
    (conf.net A prog s₀).step (calm comp ring data) (.comp q) =
      some (calm (Function.update comp q comp') ring data) := by
  refine (Kahn.step_skip hop).trans (congrArg some (calm_congr (fun q' => ?_) ?_ ?_ ?_ ?_))
  · rw [update_comp, Function.update_apply]
    rfl
  all_goals intros; rfl

/-- It puts on a ring buffer. -/
theorem calm_put {k : Buf P} {bs : List Byte}
    (hop : conf.compOp A prog q (comp q) = .put (.ring k.1 k.2.1 k.2.2) bs comp')
    (hroom : ∀ n ∈ (conf.net A prog s₀).cap (.ring k.1 k.2.1 k.2.2),
      (ring k).length + bs.length ≤ n) :
    (conf.net A prog s₀).step (calm comp ring data) (.comp q) =
      some (calm (Function.update comp q comp') (Function.update ring k (ring k ++ bs)) data) := by
  refine (Kahn.step_put hop hroom).trans
    (congrArg some (calm_congr (fun q' => ?_) ?_ (fun p c i => ?_) ?_ ?_))
  · rw [update_comp, Function.update_apply]
    rfl
  · intros; rfl
  · by_cases hk : (p, c, i) = k
    · subst hk
      simp [calm]
    · have hne : Wire.ring p c i ≠ .ring k.1 k.2.1 k.2.2 := fun heq => by
        obtain ⟨rfl, rfl, rfl⟩ := Wire.ring.inj heq
        exact hk rfl
      rw [Function.update_of_ne hne, Function.update_of_ne hk]
      rfl
  · intros; rfl
  · intros; rfl

/-- It reads what was sent. -/
theorem calm_read {p : P} {n : ℕ} {next : List Byte → Comp P σ}
    (hop : conf.compOp A prog q (comp q) = .take (.data p q) n next)
    (hlen : n ≤ (data p q).length) :
    (conf.net A prog s₀).step (calm comp ring data) (.comp q) =
      some (calm (Function.update comp q (next ((data p q).take n))) ring
        (Function.update data p (Function.update (data p) q ((data p q).drop n)))) := by
  refine (Kahn.step_take hop hlen).trans
    (congrArg some (calm_congr (fun q' => ?_) ?_ ?_ ?_ fun p' q' => ?_))
  · rw [update_comp, Function.update_apply]
    rfl
  · intros; rfl
  · intros; rfl
  · intros; rfl
  · rw [update_update_apply]
    by_cases hpq : p' = p ∧ q' = q
    · obtain ⟨rfl, rfl⟩ := hpq
      simp [calm]
    · have hne : Wire.data p' q' ≠ .data p q := fun heq => hpq (Wire.data.inj heq)
      rw [Function.update_of_ne hne, if_neg hpq]
      rfl

/-- **It asks, and the service thread takes the request and answers it.** -/
theorem calm_serve {p : P} {r : GetRequest} {k : Buf P} {n : ℕ}
    (hop : conf.compOp A prog q (comp q) = .put (.request q p) [r] comp')
    (hserve : conf.serviceOp p q (.got r) =
      .take (.ring k.1 k.2.1 k.2.2) n (.replies : List Byte → Serving))
    (hlen : n ≤ (ring k).length) :
    Reaches (conf.net A prog s₀).step (calm comp ring data)
      (calm (Function.update comp q comp') (Function.update ring k ((ring k).drop n))
        (Function.update data p (Function.update (data p) q (data p q ++ (ring k).take n)))) := by
  set N := conf.net A prog s₀
  let s₁ : KahnState (Wire.Msg P) (Agent.Local P σ) :=
    ⟨Function.update (calm comp ring data).loc (.comp q) comp',
      Function.update (calm comp ring data).chan (.request q p) [r]⟩
  let s₂ : KahnState (Wire.Msg P) (Agent.Local P σ) :=
    ⟨Function.update s₁.loc (.service p q) (.got r),
      Function.update s₁.chan (.request q p) []⟩
  let s₃ : KahnState (Wire.Msg P) (Agent.Local P σ) :=
    ⟨Function.update s₂.loc (.service p q) (.replies ((ring k).take n)),
      Function.update s₂.chan (.ring k.1 k.2.1 k.2.2) ((ring k).drop n)⟩
  have h₁ : N.step (calm comp ring data) (.comp q) = some s₁ :=
    Kahn.step_put hop fun n hn => nomatch hn
  have h₂ : N.step s₁ (.service p q) = some s₂ := by
    have htake : N.prog (.service p q) (s₁.loc (.service p q)) =
        .take (.request q p) 1 fun rs => (rs.head?.map Serving.got).getD .idle := rfl
    have hreq : s₁.chan (.request q p) = [r] := Function.update_self ..
    rw [Kahn.step_take htake (by rw [hreq]; rfl), hreq]
    rfl
  have h₃ : N.step s₂ (.service p q) = some s₃ := by
    have htake : N.prog (.service p q) (s₂.loc (.service p q)) =
        .take (.ring k.1 k.2.1 k.2.2) n (.replies : List Byte → Serving) := by
      rw [show s₂.loc (.service p q) = .got r from Function.update_self ..]
      exact hserve
    have hring : s₂.chan (.ring k.1 k.2.1 k.2.2) = ring k := by
      simp [s₂, s₁, calm]
    rw [Kahn.step_take htake (by rw [hring]; exact hlen), hring]
  have h₄ : N.step s₃ (.service p q) = some (calm (Function.update comp q comp')
      (Function.update ring k ((ring k).drop n))
      (Function.update data p (Function.update (data p) q (data p q ++ (ring k).take n)))) := by
    refine (Conf.net_replies (Function.update_self ..)).trans (congrArg some
      (calm_congr (fun q' => ?_) (fun p' q' => ?_) (fun p' c i => ?_) (fun q' p' => ?_)
        fun p' q' => ?_))
    · simp [s₃, s₂, s₁, update_comp, Function.update_apply, calm]
    · by_cases hpq : Agent.service p' q' = .service p q
      · obtain ⟨rfl, rfl⟩ := Agent.service.inj hpq
        exact Function.update_self ..
      · simp [s₃, s₂, s₁, Function.update_of_ne hpq, calm]
    · by_cases hk : (p', c, i) = k
      · subst hk
        simp [s₃]
      · have hne : Wire.ring p' c i ≠ .ring k.1 k.2.1 k.2.2 := fun heq => by
          obtain ⟨rfl, rfl, rfl⟩ := Wire.ring.inj heq
          exact hk rfl
        simp [s₃, s₂, s₁, Function.update_of_ne hne, Function.update_of_ne hk, calm]
    · by_cases hqp : Wire.request q' p' = .request q p
      · obtain ⟨rfl, rfl⟩ := Wire.request.inj hqp
        simp [s₃, s₂]
      · simp [s₃, s₂, s₁, calm]
    · rw [update_update_apply]
      by_cases hpq : p' = p ∧ q' = q
      · obtain ⟨rfl, rfl⟩ := hpq
        simp [s₃, s₂, s₁, calm]
      · have hne : Wire.data p' q' ≠ .data p q := fun heq => hpq (Wire.data.inj heq)
        simp [s₃, s₂, s₁, Function.update_of_ne hne, if_neg hpq, calm]
  exact .head h₁ (.head h₂ (.head h₃ (.single h₄)))

/-! ### A call from its start to its return -/

/-- A thread inside a call. -/
def Comp.inCall (comp : Comp P σ) (m : Micro P (ℤ × List Byte)) : Comp P σ :=
  { comp with micro := some m }

omit [DecidableEq P] in
@[simp] theorem inCall_inCall (comp : Comp P σ) (m m' : Micro P (ℤ × List Byte)) :
    (comp.inCall m).inCall m' = comp.inCall m' := rfl

/-- What was sent to `q` and is not read, when it has still to read `blocks`. -/
def sentTo (q : P) (blocks : List (P × List Byte)) (p q' : P) : List Byte :=
  if q' = q then (blocks.filter (·.1 = p)).flatMap Prod.snd else []

theorem sentTo_nil (q : P) : sentTo q ([] : List (P × List Byte)) = fun _ _ => [] := by
  funext p q'
  simp [sentTo]

/-- **It asks every producer**, and each of them answers. -/
theorem reaches_asks {links : List (P × ℕ)} {bufs : List (Buf P)} {n du : ℕ}
    {next : Micro P (ℤ × List Byte)} (c : Comp P σ) (done : List (P × List Byte))
    (hnodup : bufs.Nodup) (hserve : List.Forall₂ (fun (x : P × ℕ) (k : Buf P) =>
      conf.serviceOp x.1 q (.got ⟨false, x.2, du⟩) =
        .take (.ring k.1 k.2.1 k.2.2) n (.replies : List Byte → Serving)) links bufs)
    (hlen : ∀ k ∈ bufs, n ≤ (ring k).length)
    (hcomp : comp q = c.inCall ((requestAll du links).bind fun _ => next)) :
    Reaches (conf.net A prog s₀).step (calm comp ring (sentTo q done))
      (calm (Function.update comp q (c.inCall next))
        (fun k => (ring k).drop (if k ∈ bufs then n else 0))
        (sentTo q (done ++ sent links (bufs.map fun k => (ring k).take n)))) := by
  induction hserve generalizing comp ring done with
  | nil =>
    have hsame : Function.update comp q (c.inCall next) = comp := by
      rw [show c.inCall next = comp q from hcomp.symm, Function.update_eq_self]
    simp [hsame, sent]
    exact .refl _
  | @cons x k links bufs hx hrest ih =>
    obtain ⟨p, tag⟩ := x
    obtain ⟨hnot, hnodup⟩ := List.nodup_cons.mp hnodup
    have hop : conf.compOp A prog q (comp q) = .put (.request q p) [⟨false, tag, du⟩]
        (c.inCall ((requestAll du links).bind fun _ => next)) := by
      rw [hcomp]
      rfl
    have hfirst := calm_serve A conf prog s₀ comp ring (sentTo q done) hop hx
      (hlen k List.mem_cons_self)
    have hne {k' : Buf P} (hk' : k' ∈ bufs) : k' ≠ k := fun heq => hnot (heq ▸ hk')
    have hdata : Function.update (sentTo q done) p (Function.update (sentTo q done p) q
        (sentTo q done p q ++ (ring k).take n)) = sentTo q (done ++ [(p, (ring k).take n)]) := by
      funext p' q'
      rw [update_update_apply]
      by_cases hpq : p' = p ∧ q' = q
      · obtain ⟨rfl, rfl⟩ := hpq
        simp [sentTo]
      · rw [if_neg hpq]
        by_cases hq : q' = q
        · have hp : p ≠ p' := fun heq => hpq ⟨heq.symm, hq⟩
          simp [sentTo, hq, hp]
        · simp [sentTo, hq]
    rw [hdata] at hfirst
    refine hfirst.trans ?_
    have htail := ih (Function.update comp q
        (c.inCall ((requestAll du links).bind fun _ => next)))
      (Function.update ring k ((ring k).drop n)) (done ++ [(p, (ring k).take n)]) hnodup
      (fun k' hk' => by
        rw [Function.update_of_ne (hne hk')]
        exact hlen k' (List.mem_cons_of_mem _ hk')) (Function.update_self ..)
    convert htail using 2
    · rw [Function.update_idem]
    · funext k'
      by_cases hk : k' = k
      · subst hk
        simp [hnot]
      · simp [hk]
    · have hmap : (bufs.map fun k' => (Function.update ring k ((ring k).drop n) k').take n) =
          bufs.map fun k' => (ring k').take n :=
        List.map_congr_left fun k' hk' => by rw [Function.update_of_ne (hne hk')]
      rw [hmap, List.append_assoc]
      rfl

/-- **It reads what was sent**, and has its answer. -/
theorem reaches_reads {m : Micro P (ℤ × List Byte)} {blocks : List (P × List Byte)}
    {out : ℤ × List Byte} (c : Comp P σ) (hreads : m.Reads [])
    (hanswer : m.answer blocks = some (out, [])) (hcomp : comp q = c.inCall m) :
    Reaches (conf.net A prog s₀).step (calm comp ring (sentTo q blocks))
      (calm (Function.update comp q (c.inCall (.done out))) ring fun _ _ => []) := by
  induction m generalizing comp blocks with
  | done a =>
    obtain ⟨rfl, rfl⟩ := Prod.mk.inj (Option.some.inj hanswer)
    have hsame : Function.update comp q (c.inCall (.done a)) = comp := by
      rw [← hcomp, Function.update_eq_self]
    rw [hsame, sentTo_nil]
    exact .refl _
  | fault => cases hanswer
  | put | commit | retry | fill | poll => exact hreads.elim
  | request p r next ih => exact absurd hreads.2.1 List.not_mem_nil
  | read p n next ih =>
    rcases blocks with _ | ⟨⟨p', bs⟩, blocks⟩
    · cases hanswer
    · obtain ⟨⟨rfl, hbs⟩, hrest⟩ := Option.ite_none_right_eq_some.mp hanswer
      have hop : conf.compOp A prog q (comp q) =
          .take (.data p' q) n fun bs => c.inCall (next bs) := by
        rw [hcomp]
        rfl
      have hsplit : sentTo q ((p', bs) :: blocks) p' q = bs ++ sentTo q blocks p' q := by
        simp [sentTo]
      have hdata : Function.update (sentTo q ((p', bs) :: blocks)) p'
          (Function.update (sentTo q ((p', bs) :: blocks) p') q (sentTo q blocks p' q)) =
          sentTo q blocks := by
        funext p q'
        rw [update_update_apply]
        by_cases hpq : p = p' ∧ q' = q
        · obtain ⟨rfl, rfl⟩ := hpq
          simp
        · rw [if_neg hpq]
          by_cases hq : q' = q
          · have hp : p' ≠ p := fun heq => hpq ⟨heq.symm, hq⟩
            simp [sentTo, hq, hp]
          · simp [sentTo, hq]
      have hfirst := calm_read A conf prog s₀ comp ring (sentTo q ((p', bs) :: blocks)) hop
        (by rw [hsplit, List.length_append]; omega)
      rw [hsplit, ← hbs, List.take_left, List.drop_left, hdata] at hfirst
      refine .head hfirst ?_
      have htail := ih bs (Function.update comp q (c.inCall (next bs))) (hreads bs) hrest
        (Function.update_self ..)
      rwa [Function.update_idem] at htail

/-- **A put goes through the ring buffers**, all of which have room. -/
theorem reaches_puts {ch : SinkChan P} {i : ℕ} {x : List Byte × ℕ}
    {out : ℤ → ℤ × List Byte} (c : Comp P σ) (hrings : ch.Rings) (hholds : ch.Holds x) {j : ℕ}
    (hj : j ≤ ch.width)
    (hroom : ∀ k, j ≤ k → k < ch.width → ∀ n ∈ (conf.net A prog s₀).cap (.ring q i k),
      (ring (q, i, k)).length + (ch.share k x).length ≤ n)
    (hcomp : comp q = c.inCall ((ch.rest i x j).bind fun ret => .done (out ret))) :
    Reaches (conf.net A prog s₀).step (calm comp ring data)
      (calm (Function.update comp q (c.inCall (.done (out 0))))
        (fun k => ring k ++ if k.1 = q ∧ k.2.1 = i ∧ j ≤ k.2.2 ∧ k.2.2 < ch.width then
          ch.share k.2.2 x else []) data) := by
  induction hd : ch.width - j generalizing j comp ring with
  | zero =>
    obtain rfl : j = ch.width := by omega
    have hsame : Function.update comp q (c.inCall (.done (out 0))) = comp := by
      rw [hrings.rest_width] at hcomp
      rw [show c.inCall (.done (out 0)) = comp q from hcomp.symm, Function.update_eq_self]
    have hring : (fun k : Buf P => ring k ++ if k.1 = q ∧ k.2.1 = i ∧ ch.width ≤ k.2.2 ∧
        k.2.2 < ch.width then ch.share k.2.2 x else []) = ring := by
      funext k
      rw [if_neg (by omega), List.append_nil]
    rw [hsame, hring]
    exact .refl _
  | succ d ih =>
    have hlt : j < ch.width := by omega
    have hop : conf.compOp A prog q (comp q) = .put (.ring q i j) (ch.share j x)
        (c.inCall ((ch.rest i x (j + 1)).bind fun ret => .done (out ret))) := by
      rw [hcomp, hrings.rest_eq_put hholds hlt]
      rfl
    have hfirst := calm_put A conf prog s₀ comp ring data (k := (q, i, j)) hop (hroom j le_rfl hlt)
    refine .head hfirst ?_
    have htail := ih (Function.update comp q
        (c.inCall ((ch.rest i x (j + 1)).bind fun ret => .done (out ret))))
      (Function.update ring (q, i, j) (ring (q, i, j) ++ ch.share j x)) hlt
      (fun k hjk hk n hn => ?_) (Function.update_self ..) (by omega)
    · convert htail using 2
      · rw [Function.update_idem]
      · funext k
        by_cases hk : k = (q, i, j)
        · subst hk
          simp [hlt]
        · rw [Function.update_of_ne hk]
          have hiff : (k.1 = q ∧ k.2.1 = i ∧ j ≤ k.2.2 ∧ k.2.2 < ch.width) ↔
              (k.1 = q ∧ k.2.1 = i ∧ j + 1 ≤ k.2.2 ∧ k.2.2 < ch.width) := by
            constructor
            · rintro ⟨rfl, rfl, hle, hlt⟩
              have hne : j ≠ k.2.2 := fun heq => hk (by rw [heq])
              exact ⟨rfl, rfl, by omega, hlt⟩
            · rintro ⟨rfl, rfl, hle, hlt⟩
              exact ⟨rfl, rfl, by omega, hlt⟩
          simp only [hiff]
    · have hkj : (q, i, k) ≠ (q, i, j) := by simp; omega
      rw [Function.update_of_ne hkj]
      exact hroom k (by omega) hk n hn

/-- **A call returns.** -/
theorem calm_return (q : P) (out : ℤ × List Byte) :
    (conf.net A prog s₀).step
      (calm (Function.update comp q ((comp q).inCall (.done out))) ring data) (.comp q) =
      some (calm (Function.update comp q
        (Dsys.returns (prog q) ((comp q).inCall (.done out)) out)) ring data) := by
  have hskip := calm_skip A conf prog s₀ (Function.update comp q ((comp q).inCall (.done out))) ring
    data (q := q) (by rw [Function.update_self]; rfl)
  rwa [Function.update_idem] at hskip

end Calm

/-! ## Exchanges are runs of the net -/

namespace Conf

variable {A : Arith} {conf : Conf P} {prog : P → Program σ} {fresh : Fresh P} {init : P → σ}
  {comp : P → Comp P σ} {s t : ExchangeState P (Buf P) Byte σ} {q : P}

/-- Every computation thread is between two calls, where its program is. -/
def Between (comp : P → Comp P σ) (loc : P → σ) : Prop :=
  ∀ q, (comp q).state = loc q ∧ (comp q).micro = none

theorem Between.update {loc : P → σ} (h : Between comp loc) {q : P} {c : Comp P σ} {st : σ}
    (hstate : c.state = st) (hmicro : c.micro = none) :
    Between (Function.update comp q c) (Function.update loc q st) := by
  intro q'
  rcases eq_or_ne q' q with rfl | hne
  · rw [Function.update_self, Function.update_self]
    exact ⟨hstate, hmicro⟩
  · rw [Function.update_of_ne hne, Function.update_of_ne hne]
    exact h q'

variable (A conf) in
/-- A call is made. -/
theorem compOp_none {c : Comp P σ} (hm : c.micro = none) {call : Call}
    (hcall : (prog q).call c.state = some call) :
    conf.compOp A prog q c = .skip (c.inCall (bcCall A (conf.chans q) call)) := by
  simp only [compOp, hm, hcall]
  rfl

/-- The ring buffers of a channel are as large as it says. -/
theorem cap_net {c k : ℕ} {ch : SinkChan P} (hch : (conf.chans q).sinks[c]? = some ch)
    (hrings : ch.Rings) (hk : k < ch.width) :
    (conf.net A prog (Dsys.start conf fresh init)).cap (.ring q c k) =
      some (unitsSize ch.dunits ch.dtype.bytes) := by
  obtain ⟨raw, hring⟩ := Dsys.exists_ring?_start fresh init hrings hch hk
  change Option.map Mc121.size _ = _
  rw [hring]
  rfl

variable (fresh init) in
/-- **A put.** -/
theorem reaches_put {c : ℕ} {loc : List Byte} {du : ℤ} {ch : SinkChan P}
    (hcomp : Between comp s.loc)
    (hcall : (prog q).call (s.loc q) = some (.put (.sink c) (some loc) du))
    (hch : (conf.chans q).sinks[c]? = some ch) (hrings : ch.Rings)
    (hholds : ch.Holds (loc, du.toNat)) (hdu : 1 ≤ du)
    (hready : (putExchange q c ch (loc, du.toNat) ((prog q).resume (s.loc q) (0, loc))).Ready
      (conf.exchanges A prog).cap s.chan) :
    ∃ comp', Between comp' (Function.update s.loc q ((prog q).resume (s.loc q) (0, loc))) ∧
      Reaches (conf.net A prog (Dsys.start conf fresh init)).step (calm comp s.chan fun _ _ => [])
        (calm comp' ((putExchange q c ch (loc, du.toNat)
          ((prog q).resume (s.loc q) (0, loc))).after s.chan) fun _ _ => []) := by
  obtain ⟨hstate, hmicro⟩ := hcomp q
  rw [← hstate] at hcall ⊢
  have hcalls : bcCall A (conf.chans q) (.put (.sink c) (some loc) du) =
      (ch.rest c (loc, du.toNat) 0).bind fun ret => .done (ret, loc) := by
    simp only [bcCall, bcPut, hch, if_neg (not_lt.mpr hdu), hrings.rest_zero]
    rfl
  have hstart := calm_skip A conf prog (Dsys.start conf fresh init) comp s.chan (fun _ _ => [])
    (compOp_none A conf hmicro hcall)
  rw [hcalls] at hstart
  have hputs := reaches_puts A conf prog (Dsys.start conf fresh init)
    (Function.update comp q ((comp q).inCall
      ((ch.rest c (loc, du.toNat) 0).bind fun ret => .done (ret, loc))))
    s.chan (fun _ _ => []) (q := q) (comp q) hrings hholds
    (Nat.zero_le _) (fun k _ hk n hn => ?_) (Function.update_self ..)
  · have hreturn := calm_return A conf prog (Dsys.start conf fresh init) comp
      ((putExchange q c ch (loc, du.toNat) ((prog q).resume (comp q).state (0, loc))).after s.chan)
      (fun _ _ => []) q (0, loc)
    rw [Function.update_idem] at hputs
    have hbetween := hcomp.update (q := q)
      (c := Dsys.returns (prog q) ((comp q).inCall (.done (0, loc))) (0, loc)) rfl rfl
    refine ⟨_, hbetween, .head hstart (hputs.trans ?_)⟩
    convert Reaches.single hreturn using 2
    funext k
    simp [Exchange.after, putExchange]
  · have hroom := hready.room (q, c, k) n
    rw [cap_net hch hrings hk] at hn
    simp only [exchanges, hch, Option.map_some] at hroom
    simpa [putExchange, hk] using hroom hn

/-- What a service thread answers a request from. -/
theorem serviceOp_of_bufOf (hmatched : conf.Matched) {src : Src P}
    (hsrc : src ∈ (conf.chans q).srcs) {x : P × ℕ} (hx : x ∈ src.links) {k : Buf P}
    (hk : conf.bufOf q x = some k) (du : ℕ) : conf.serviceOp x.1 q (.got ⟨false, x.2, du⟩) =
      .take (.ring k.1 k.2.1 k.2.2) (sizeMul src.dtype.bytes du)
        (.replies : List Byte → Serving) := by
  obtain ⟨link, ch, hlink, hch, hreader, rfl⟩ := bufOf_eq_some hk
  obtain ⟨ch', hch', hbytes, -⟩ := hmatched x.1 q src x.2 link hsrc hx hlink
  obtain rfl := Option.some.inj (hch.symm.trans hch')
  simp only [Conf.serviceOp, hlink, hch, hreader, if_true, hbytes]

/-- All that it asks. -/
theorem Serves.serviceOp {src : Src P} {r} {bufs : List (Buf P)} {loc : List Byte} {du : ℕ}
    (h : conf.Serves q src r bufs loc du) (hmatched : conf.Matched)
    (hsrc : src ∈ (conf.chans q).srcs) :
    List.Forall₂ (fun (x : P × ℕ) (k : Buf P) => conf.serviceOp x.1 q (.got ⟨false, x.2, du⟩) =
      .take (.ring k.1 k.2.1 k.2.2) (sizeMul src.dtype.bytes du)
        (.replies : List Byte → Serving)) src.links bufs := by
  have hlen : src.links.length = bufs.length := by
    simpa using congrArg List.length h.found
  rw [List.forall₂_iff_get]
  refine ⟨hlen, fun i hi hi' => ?_⟩
  have hfound : conf.bufOf q src.links[i] = some bufs[i] := by
    have hget := List.getElem_of_eq h.found (i := i) (by simpa using hi)
    simpa using hget
  exact serviceOp_of_bufOf hmatched hsrc (List.getElem_mem hi) hfound du

variable (fresh init) in
/-- **A get.** -/
theorem reaches_get (hconf : conf.Ordered) {j : ℕ} {loc : List Byte} {du : ℤ} {src : Src P} {r}
    {bufs : List (Buf P)} (hcomp : Between comp s.loc)
    (hcall : (prog q).call (s.loc q) = some (.get (.src j) (some loc) du))
    (hsrc : (conf.chans q).srcs[j]? = some src) (hr : src.role.r A = some r)
    (hserves : conf.Serves q src r bufs loc du.toNat) (hdu : 1 ≤ du)
    (hthere : ∀ k ∈ bufs, sizeMul src.dtype.bytes du.toNat ≤ (s.chan k).length) :
    ∃ comp', Between comp' (Function.update s.loc q ((prog q).resume (s.loc q)
        (answered src r loc du.toNat
          (bufs.map fun k => (s.chan k).take (sizeMul src.dtype.bytes du.toNat))))) ∧
      Reaches (conf.net A prog (Dsys.start conf fresh init)).step (calm comp s.chan fun _ _ => [])
        (calm comp' (fun k => (s.chan k).drop
          (if k ∈ bufs then sizeMul src.dtype.bytes du.toNat else 0)) fun _ _ => []) := by
  have hmem := List.mem_of_getElem? hsrc
  set n := sizeMul src.dtype.bytes du.toNat with hn
  set blocks := bufs.map fun k => (s.chan k).take n with hblocks
  obtain ⟨hstate, hmicro⟩ := hcomp q
  rw [← hstate] at hcall ⊢
  obtain ⟨rest, hrest, hreads⟩ :=
    exists_r_eq hr (hconf.ne_collectAny q src hmem) hserves.one loc du.toNat
  have hlen : src.links.length = bufs.length := by
    simpa using congrArg List.length hserves.found
  -- The call has its answers.
  obtain ⟨out, hanswer⟩ := hserves.room blocks (by rw [hblocks, List.length_map, hlen])
    fun bs hbs => by
      obtain ⟨k, hk, rfl⟩ := List.mem_map.mp hbs
      exact List.length_take_of_le (hthere k hk)
  have hout : answered src r loc du.toNat blocks = out := by
    rw [answered, hanswer]
    rfl
  rw [hrest, answer_bind_of (answer_requestAll _ _ _)] at hanswer
  have hcalls : bcCall A (conf.chans q) (.get (.src j) (some loc) du) =
      (requestAll du.toNat src.links).bind fun _ => rest := by
    simp only [bcCall, bcGet, hsrc, if_neg (not_lt.mpr hdu), hr, hrest]
  have hstart := calm_skip A conf prog (Dsys.start conf fresh init) comp s.chan (fun _ _ => [])
    (compOp_none A conf hmicro hcall)
  rw [hcalls] at hstart
  have hasks := reaches_asks A conf prog (Dsys.start conf fresh init)
    (Function.update comp q ((comp q).inCall
      ((requestAll du.toNat src.links).bind fun _ => rest)))
    s.chan (q := q) (comp q) [] hserves.nodup (hserves.serviceOp hconf.matched hmem)
    hthere (Function.update_self ..)
  rw [sentTo_nil, List.nil_append, Function.update_idem] at hasks
  have hreads := reaches_reads A conf prog (Dsys.start conf fresh init)
    (Function.update comp q ((comp q).inCall rest))
    (fun k => (s.chan k).drop (if k ∈ bufs then n else 0)) (q := q) (comp q) hreads hanswer
    (Function.update_self ..)
  rw [Function.update_idem] at hreads
  have hreturn := calm_return A conf prog (Dsys.start conf fresh init) comp
    (fun k => (s.chan k).drop (if k ∈ bufs then n else 0)) (fun _ _ => []) q out
  have hbetween := hcomp.update (q := q)
    (c := Dsys.returns (prog q) ((comp q).inCall (.done out)) out) rfl rfl
  rw [hout]
  exact ⟨_, hbetween, .head hstart (hasks.trans (hreads.trans (.single hreturn)))⟩

variable (fresh init) in
/-- **Every exchange is a run of the net.** -/
theorem reaches_exchange (hconf : conf.Ordered) (hcomp : Between comp s.loc)
    (hstep : (conf.exchanges A prog).step s q = some t) :
    ∃ comp', Between comp' t.loc ∧
      Reaches (conf.net A prog (Dsys.start conf fresh init)).step (calm comp s.chan fun _ _ => [])
        (calm comp' t.chan fun _ _ => []) := by
  obtain ⟨x, hprog, hready, rfl⟩ := Exchanges.exists_of_step hstep
  cases exchange_eq_some.mp hprog with
  | put hcall hch hrings hholds hdu =>
    exact reaches_put fresh init hcomp hcall hch hrings hholds hdu hready
  | @get j loc du src r bufs hcall hsrc hr hserves hdu =>
    have hthere : ∀ k ∈ bufs, sizeMul src.dtype.bytes du.toNat ≤ (s.chan k).length := by
      intro k hk
      simpa [getExchange, hk] using hready.there k
    obtain ⟨comp', hbetween, hreaches⟩ := reaches_get fresh init hconf hcomp
      hcall hsrc hr hserves hdu hthere
    have hblocks : (bufs.map fun k => (s.chan k).take
        (if k ∈ bufs then sizeMul src.dtype.bytes du.toNat else 0)) =
        bufs.map fun k => (s.chan k).take (sizeMul src.dtype.bytes du.toNat) :=
      List.map_congr_left fun k hk => by rw [if_pos hk]
    refine ⟨comp', ?_, ?_⟩
    · simpa only [Exchange.result, getExchange, hblocks] using hbetween
    · convert hreaches using 2
      funext k
      simp [Exchange.after, getExchange]

variable (fresh init) in
/-- **Every run of exchanges is a run of the net.** -/
theorem reaches_net (hconf : conf.Ordered) (h : Reaches (conf.exchanges A prog).step s t)
    (hcomp : Between comp s.loc) :
    ∃ comp', Between comp' t.loc ∧
      Reaches (conf.net A prog (Dsys.start conf fresh init)).step (calm comp s.chan fun _ _ => [])
        (calm comp' t.chan fun _ _ => []) := by
  refine h.invariant (P := fun t => ∃ comp', Between comp' t.loc ∧ Reaches
    (conf.net A prog (Dsys.start conf fresh init)).step (calm comp s.chan fun _ _ => [])
      (calm comp' t.chan fun _ _ => [])) ?_ ⟨comp, hcomp, .refl _⟩
  rintro t q u ⟨comp', hbetween, hreaches⟩ hstep
  obtain ⟨comp'', hbetween', hrest⟩ :=
    reaches_exchange fresh init hconf hbetween hstep
  exact ⟨comp'', hbetween', hreaches.trans hrest⟩

/-! ## How a system ends -/

omit [DecidableEq P] in
/-- What the net starts from. -/
theorem netStart_eq : netStart (Dsys.start conf fresh init) =
    calm (fun q => ⟨init q, none, []⟩) (fun _ => []) fun _ _ => [] := by
  refine calm_congr (fun q => rfl) (fun p q => rfl) (fun p c i => ?_) (fun q p => rfl)
    fun p q => rfl
  change Option.elim _ _ _ = _
  cases hring : (Dsys.start conf fresh init).ring? p c i with
  | none => rfl
  | some ring =>
    obtain ⟨ch, raw, -, rfl⟩ := Dsys.ring?_start fresh init hring
    exact Mc121.contents_mc121Create raw _

/-- Where no program calls anything, nobody moves. -/
theorem calm_halted {loc : P → σ} (hcomp : Between comp loc)
    (hend : ∀ q, (prog q).call (loc q) = none) (ring : Buf P → List Byte) (a : Agent P) :
    (conf.net A prog (Dsys.start conf fresh init)).step (calm comp ring fun _ _ => []) a =
      none := by
  cases a with
  | comp q =>
    obtain ⟨hstate, hmicro⟩ := hcomp q
    refine Kahn.step_halt ?_
    change conf.compOp A prog q (comp q) = .halt
    simp only [compOp, hmicro, hstate, hend q]
  | service p q =>
    have hop : (conf.net A prog (Dsys.start conf fresh init)).prog (.service p q)
        ((calm comp ring fun _ _ => []).loc (.service p q)) =
        .take (.request q p) 1 fun rs => (rs.head?.map Serving.got).getD .idle := rfl
    exact Kahn.step_take_wait hop Nat.one_pos

variable (fresh) in
/-- **If the exchanges have one run in which all programs end, all runs of the system end**, and
with the programs where that run leaves them. -/
theorem allEnd_of_exchanges (hconf : conf.Ordered) (hone : conf.OneToOne) (hapart : conf.Apart)
    (h : Reaches (conf.exchanges A prog).step ⟨init, fun _ => []⟩ t)
    (hend : ∀ q, (prog q).call (t.loc q) = none) : conf.AllEnd A prog fresh init t.loc := by
  have hstart : Between (fun q => (⟨init q, none, []⟩ : Comp P σ)) init := fun q => ⟨rfl, rfl⟩
  obtain ⟨comp', hbetween, hreaches⟩ := reaches_net fresh init hconf h hstart
  rw [← netStart_eq] at hreaches
  have hall := allEnd_of_net hconf hone hapart hreaches (calm_halted hbetween hend t.chan)
  have hfinal : (fun q => ((calm comp' t.chan fun _ _ => []).loc (.comp q)).state) = t.loc :=
    funext fun q => (hbetween q).1
  rwa [hfinal] at hall

end Conf

end Libdsys
