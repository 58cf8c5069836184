import Libdsys.Dsys.Task
import Libdsys.Iskel.Create

/-!
# Programs/Wiring — the channels a program creates

A program makes its channels one after the other, and all processes make them before they use any.
The `k`-th sink that names a peer leads to the `k`-th source of the peer that names the process:
from the lists alone follows which ring buffer a source reads.

The programs are followed to where a process comes to its first `bc_chan_destroy`, and waits there:
that of a source reads a record which it has freed just before, and no program is sure to survive
it.

* `wired` — what all processes have that have made their channels.
* `wired_srcs` / `bufOf_wired` — the tags of a source, and the ring buffers they lead to.
* `atGet_wired` — so a get of one of them reads what that sink sent.
* `ordered_wired` — pipes, replications and spreads, collected and reduced, do not poll.
-/

open Machinery

namespace Libdsys

/-! ## The processes -/

/-- A rank of the processes that were started. -/
def There (size : ℕ) (rank : ℤ) : Prop := rank > -1 ∧ rank < size

instance (size : ℕ) (rank : ℤ) : Decidable (There size rank) :=
  inferInstanceAs (Decidable (_ ∧ _))

/-- All of them. -/
def ranks (size : ℕ) : List ℤ := (List.range size).map fun i : ℕ => (i : ℤ)

theorem mem_ranks {size : ℕ} {rank : ℤ} : rank ∈ ranks size ↔ There size rank := by
  rw [ranks, List.mem_map]
  constructor
  · rintro ⟨i, hi, rfl⟩
    have hi := List.mem_range.mp hi
    exact ⟨by omega, by omega⟩
  · rintro ⟨hle, hlt⟩
    exact ⟨rank.toNat, List.mem_range.mpr (by omega), by omega⟩

theorem nodup_ranks (size : ℕ) : (ranks size).Nodup :=
  List.Nodup.map (fun _ _ h => Int.ofNat.inj h) List.nodup_range

/-- Those behind the first. -/
def workers (numWorkers : ℕ) : List ℤ := (List.range numWorkers).map fun i : ℕ => (i : ℤ) + 1

section Workers

variable {numWorkers : ℕ}

theorem mem_workers {rank : ℤ} : rank ∈ workers numWorkers ↔ 1 ≤ rank ∧ rank ≤ numWorkers := by
  rw [workers, List.mem_map]
  constructor
  · rintro ⟨i, hi, rfl⟩
    have hi := List.mem_range.mp hi
    omega
  · rintro ⟨hle, hle'⟩
    exact ⟨(rank - 1).toNat, List.mem_range.mpr (by omega), by omega⟩

theorem nodup_workers (numWorkers : ℕ) : (workers numWorkers).Nodup :=
  List.Nodup.map (fun _ _ h => by simpa using h) List.nodup_range

theorem length_workers (numWorkers : ℕ) : (workers numWorkers).length = numWorkers := by
  rw [workers, List.length_map, List.length_range]

theorem ne_zero_of_mem_workers {rank : ℤ} (h : rank ∈ workers numWorkers) : rank ≠ 0 := by
  have hle := (mem_workers.mp h).1
  omega

theorem idxOf_workers {k : ℕ} (hk : k < numWorkers) :
    (workers numWorkers).idxOf ((k : ℤ) + 1) = k := by
  have hlt : k < (workers numWorkers).length := by rwa [length_workers]
  have hget : (workers numWorkers)[k] = (k : ℤ) + 1 := by simp [workers]
  rw [← hget]
  exact (nodup_workers numWorkers).idxOf_getElem k hlt

end Workers

/-- Units whose bytes can be counted. -/
theorem unitsSize_eq {b n : ℕ} (hn : n < 2 ^ 31) (h : n * b < 2 ^ 64) : unitsSize n b = n * b := by
  rw [unitsSize, if_pos hn, sizeMul, Nat.mod_eq_of_lt h]

/-! ## Making channels -/

/-- A call of `bc_src_create` or `bc_sink_create`. -/
inductive Make
  | src (prod : List ℤ) (dtype : Dtype) (role : Role)
  | sink (cons : List ℤ) (dtype : Dtype) (bunits : ℕ) (role : Role)
deriving DecidableEq

namespace Make

/-- What it makes of a process. -/
def apply (proc : Proc ℤ) : Make → Proc ℤ
  | .src prod _ _ => bcSrcCreate proc prod
  | .sink cons _ _ _ =>
    linkInsertAll (bcSinkCreate proc cons).inserting (bcSinkCreate proc cons)

/-- The channel of a sink. -/
def sinkChan : Make → Option (SinkChan ℤ)
  | .src _ _ _ => none
  | .sink cons dtype bunits role => some ⟨role, cons, dtype, bunits⟩

/-- The list, the data type and the role of a source. -/
def srcOf : Make → Option (List ℤ × Dtype × Role)
  | .src prod dtype role => some (prod, dtype, role)
  | .sink _ _ _ _ => none

/-- The consumers of a sink. -/
def consOf : Make → Option (List ℤ)
  | .src _ _ _ => none
  | .sink cons _ _ _ => some cons

/-- The list it is made over. -/
def peers : Make → List ℤ
  | .src prod _ _ => prod
  | .sink cons _ _ _ => cons

/-- Its data type. -/
def dtype : Make → Dtype
  | .src _ dtype _ => dtype
  | .sink _ dtype _ _ => dtype

/-- The roles in which memory is copied and nobody polls. -/
def Copies : Make → Prop
  | .src _ _ role => role ∈
    [.pipe, .collect, .reduceSum, .reduceMul, .reduceMax, .reduceMin, .reduceMinmax]
  | .sink cons _ _ role => role ∈ [.pipe, .replicate, .spread] ∧ (role = .pipe → cons.length ≤ 1)

/-- **A channel that a process `p` may make**: over other processes, each named once, and in such
a role. -/
structure Good (p : ℤ) (m : Make) : Prop where
  nodup : m.peers.Nodup
  apart : p ∉ m.peers
  copies : m.Copies

end Make

/-- A process that has made some channels. -/
def made (makes : List Make) : Proc ℤ := makes.foldl Make.apply .start

/-- **What all processes have** that have made their channels. -/
def wired (makes : ℤ → List Make) : Conf ℤ where
  chans p :=
    { sinks := (makes p).filterMap Make.sinkChan
      srcs := List.zipWith (fun x (src : Chan ℤ) => ⟨x.2.2, src.plist.zip src.tags, x.2.1⟩)
        ((makes p).filterMap Make.srcOf) (made (makes p)).srcs }
  ltab p q := ((made (makes p)).ltab q).links

/-! ## Tags are ordinals -/

/-- The links a `bc_sink_create` is about to insert, and those that are there. -/
theorem links_bcSinkCreate {proc : Proc ℤ} (h : proc.Wf) {cons : List ℤ} (hnodup : cons.Nodup)
    (q : ℤ) : (bcSinkCreate proc cons).links q =
      (if q ∈ cons then [⟨naming proc.sinks q, proc.sinks.length⟩] else []) ++
        (proc.ltab q).links := by
  have htags : (drawTags ptag proc.ltab cons).1.map (Link.mk · proc.sinks.length) =
      cons.map fun r => ⟨naming proc.sinks r, proc.sinks.length⟩ := by
    rw [drawTags_fst hnodup, List.map_map]
    exact List.map_congr_left fun r _ => congrArg (Link.mk · _) (h.sinkTag r)
  refine congrArg₂ (· ++ ·) ?_ (links_eq_of_drawTags (fun _ => rfl) q)
  exact (congrArg (fun ls => ((cons.zip ls).filter (·.1 = q)).map Prod.snd) htags).trans
    (filter_inserting hnodup _ q)

theorem links_linkInsertAll_perm (proc : Proc ℤ) {ls : List (ℤ × Link)}
    (hls : proc.inserting = ls) (q : ℤ) :
    ((linkInsertAll ls proc).links q).Perm (proc.links q) := by
  induction ls generalizing proc with
  | nil => exact .refl _
  | cons x ls ih => exact (ih _ rfl).trans (links_linkInsert hls q)

/-- **A process that made its channels**: every tag has its link. -/
structure Complete (makes : List Make) (proc : Proc ℤ) : Prop where
  wf : proc.Wf
  inserting : proc.inserting = []
  sinks : proc.sinks.map Chan.plist = makes.filterMap Make.consOf
  srcs : proc.srcs.map Chan.plist = (makes.filterMap Make.srcOf).map Prod.fst
  links : ∀ q k c, IsNth proc.sinks q k c → ⟨k, c⟩ ∈ (proc.ltab q).links

theorem complete_made {makes : List Make} (h : ∀ m ∈ makes, m.peers.Nodup) :
    Complete makes (made makes) := by
  induction makes using List.reverseRecOn with
  | nil =>
    refine ⟨wf_start, rfl, rfl, rfl, fun q k c hn => ?_⟩
    obtain ⟨ch, hch, -⟩ := hn.named
    cases hch
  | append_singleton makes m ih =>
    have hmakes := ih fun m' hm' => h m' (List.mem_append_left _ hm')
    have hm := h m (List.mem_append_right _ List.mem_cons_self)
    have hmade : made (makes ++ [m]) = m.apply (made makes) := by
      rw [made, List.foldl_append]
      rfl
    rw [hmade]
    generalize made makes = proc at hmakes
    cases m with
    | src prod dtype role =>
      refine ⟨hmakes.wf.bcSrcCreate hm, hmakes.inserting, ?_, ?_, fun q k c hn => ?_⟩
      · simpa [Make.apply, bcSrcCreate, List.filterMap_cons, Make.consOf] using hmakes.sinks
      · simpa [Make.apply, bcSrcCreate, List.filterMap_cons, Make.srcOf, Make.peers]
          using hmakes.srcs
      · have hlinks : ((drawTags gtag proc.ltab prod).2 q).links = (proc.ltab q).links :=
          links_eq_of_drawTags (fun _ => rfl) q
        change _ ∈ ((drawTags gtag proc.ltab prod).2 q).links
        rw [hlinks]
        exact hmakes.links q k c hn
    | sink cons dtype bunits role =>
      change cons.Nodup at hm
      have hnew := hmakes.wf.bcSinkCreate hmakes.inserting hm
      obtain ⟨hwf, hins, hsinks, hsrcs⟩ := linkInsertAll_spec hnew rfl
      refine ⟨hwf, hins, ?_, ?_, fun q k c hn => ?_⟩
      · rw [Make.apply, hsinks]
        simpa [bcSinkCreate, List.filterMap_cons, Make.consOf] using hmakes.sinks
      · rw [Make.apply, hsrcs]
        simpa [bcSinkCreate, List.filterMap_cons, Make.srcOf] using hmakes.srcs
      · have hperm := links_linkInsertAll_perm (bcSinkCreate proc cons) rfl q
        have hlinks : (linkInsertAll (bcSinkCreate proc cons).inserting
            (bcSinkCreate proc cons)).links q =
            ((Make.apply proc (.sink cons dtype bunits role)).ltab q).links := by
          rw [Proc.links, hins]
          rfl
        rw [← hlinks, hperm.mem_iff, links_bcSinkCreate hmakes.wf hm]
        change IsNth (linkInsertAll _ _).sinks q k c at hn
        rw [hsinks] at hn
        have hsnoc : (bcSinkCreate proc cons).sinks =
            proc.sinks ++ [⟨cons, (drawTags ptag proc.ltab cons).1⟩] := rfl
        rw [hsnoc] at hn
        by_cases hc : c < proc.sinks.length
        · obtain ⟨ch, hch, hq⟩ := hn.named
          have hbefore := hn.before
          rw [List.getElem?_append_left hc] at hch
          rw [List.take_append_of_le_length hc.le] at hbefore
          exact List.mem_append_right _ (hmakes.links q k c ⟨⟨ch, hch, hq⟩, hbefore⟩)
        · have hlt := hn.lt
          rw [List.length_append, List.length_singleton] at hlt
          obtain rfl : c = proc.sinks.length := by omega
          obtain ⟨ch, hch, hq⟩ := hn.named
          have hbefore := hn.before
          rw [List.getElem?_concat_length] at hch
          obtain rfl := Option.some.inj hch
          rw [List.take_left] at hbefore
          subst hbefore
          have hmem : q ∈ cons := hq
          simp [hmem]

/-! ## Where a source leads -/

/-- How many of some lists name `r`. -/
def ordinal (ls : List (List ℤ)) (r : ℤ) : ℕ := ls.countP (r ∈ ·)

theorem naming_eq_ordinal (chans : List (Chan ℤ)) (r : ℤ) :
    naming chans r = ordinal (chans.map Chan.plist) r := by
  rw [ordinal, List.countP_map]
  rfl

section Wired

variable {makes : ℤ → List Make} {p q : ℤ}

/-- **A source has its tags**: how many sources before it name the producer. -/
theorem wired_srcs (hgood : ∀ p, ∀ m ∈ makes p, m.Good p) {j : ℕ} {prod : List ℤ}
    {dtype : Dtype} {role : Role}
    (hj : ((makes q).filterMap Make.srcOf)[j]? = some (prod, dtype, role)) :
    ((wired makes).chans q).srcs[j]? = some ⟨role, prod.map fun p =>
      (p, ordinal ((((makes q).filterMap Make.srcOf).take j).map Prod.fst) p), dtype⟩ := by
  have hmade := complete_made fun m hm => (hgood q m hm).nodup
  have hlist : ((made (makes q)).srcs[j]?).map Chan.plist = some prod := by
    rw [← List.getElem?_map, hmade.srcs, List.getElem?_map, hj, Option.map_some]
  obtain ⟨ch, hch, rfl⟩ := Option.map_eq_some_iff.mp hlist
  have htags : ch.tags = ch.plist.map fun p =>
      ordinal ((((makes q).filterMap Make.srcOf).take j).map Prod.fst) p := by
    rw [hmade.wf.srcs j ch hch]
    refine List.map_congr_left fun p _ => ?_
    rw [naming_eq_ordinal, List.map_take, hmade.srcs, ← List.map_take]
  have hsrcs : ((wired makes).chans q).srcs = List.zipWith
      (fun x (src : Chan ℤ) => ⟨x.2.2, src.plist.zip src.tags, x.2.1⟩)
      ((makes q).filterMap Make.srcOf) (made (makes q)).srcs := rfl
  rw [hsrcs, List.getElem?_zipWith, hj, hch]
  simp only [htags, List.map_prod_left_eq_zip]

theorem wired_sinks (makes : ℤ → List Make) (p : ℤ) :
    ((wired makes).chans p).sinks = (makes p).filterMap Make.sinkChan := rfl

/-- The lists of the sinks. -/
theorem map_plist_sinks (makes : List Make) :
    (makes.filterMap Make.sinkChan).map SinkChan.plist = makes.filterMap Make.consOf := by
  rw [List.map_filterMap]
  refine List.filterMap_congr fun m _ => ?_
  cases m <;> rfl

/-- **A link is found by its ordinal.** -/
theorem find?_wired (hgood : ∀ p, ∀ m ∈ makes p, m.Good p) {k c : ℕ} :
    ((wired makes).ltab p q).find? (·.tag = k) = some ⟨k, c⟩ ↔
      IsNth (made (makes p)).sinks q k c := by
  have hmade := complete_made fun m hm => (hgood p m hm).nodup
  have hlinks : (made (makes p)).links q = (wired makes).ltab p q := by
    rw [Proc.links, hmade.inserting]
    rfl
  have hnth := hmade.wf.links q
  rw [hlinks] at hnth
  constructor
  · exact fun h => hnth _ (List.mem_of_find?_eq_some h)
  · intro h
    cases hfind : ((wired makes).ltab p q).find? (·.tag = k) with
    | none => exact absurd (List.find?_eq_none.mp hfind _ (hmade.links q k c h)) (by simp)
    | some l =>
      have htag : l.tag = k := by simpa using List.find?_some hfind
      have hl := hnth l (List.mem_of_find?_eq_some hfind)
      rw [htag] at hl
      obtain rfl := hl.unique h
      rw [← htag]

/-- **The ring buffer a source reads** is that of the sink with the same ordinal. -/
theorem bufOf_wired (hgood : ∀ p, ∀ m ∈ makes p, m.Good p) {c : ℕ} {ch : SinkChan ℤ}
    (hch : ((wired makes).chans p).sinks[c]? = some ch) (hq : q ∈ ch.plist) :
    (wired makes).bufOf q (p, ordinal (((makes p).filterMap Make.consOf).take c) q) =
      some (p, c, Conf.node ch q) := by
  have hmade := complete_made fun m hm => (hgood p m hm).nodup
  have hlist : ((made (makes p)).sinks[c]?).map Chan.plist = some ch.plist := by
    rw [← List.getElem?_map, hmade.sinks, ← map_plist_sinks, List.getElem?_map,
      ← wired_sinks, hch, Option.map_some]
  obtain ⟨made, hsink, hplist⟩ := Option.map_eq_some_iff.mp hlist
  have hnth : IsNth (Libdsys.made (makes p)).sinks q
      (ordinal (((makes p).filterMap Make.consOf).take c) q) c := by
    refine ⟨⟨made, hsink, hplist ▸ hq⟩, ?_⟩
    rw [naming_eq_ordinal, List.map_take, hmade.sinks]
  have hreader : (wired makes).reader p c (Conf.node ch q) = some q := by
    rw [Conf.reader, hch, Option.bind_eq_bind, Option.bind_some]
    obtain ⟨m, hm, hsinkChan⟩ := List.mem_filterMap.mp (List.mem_of_getElem? hch)
    have hcopies := (hgood p m hm).copies
    obtain ⟨role, plist, dtype', dunits⟩ := ch
    cases m with
    | src => cases hsinkChan
    | sink cons dtype bunits role' =>
      obtain ⟨rfl, rfl, rfl, rfl⟩ := Option.some.inj hsinkChan |> SinkChan.mk.inj
      cases role' with
      | pipe =>
        obtain ⟨x, hx⟩ : ∃ x, cons = [x] := by
          have hlen := hcopies.2 rfl
          rcases cons with _ | ⟨x, _ | ⟨y, cons⟩⟩
          · cases hq
          · exact ⟨x, rfl⟩
          · simp at hlen
        subst hx
        rw [List.mem_singleton.mp hq]
        rfl
      | _ => exact List.getElem?_idxOf hq
  rw [Conf.bufOf, (find?_wired hgood).mpr hnth]
  simp only [Option.bind_eq_bind, Option.bind_some, hch, hreader, if_true]

/-- **A get of one of the sources.** -/
theorem atGet_wired {R : Type} (hgood : ∀ p, ∀ m ∈ makes p, m.Good p) {j : ℕ} {prod : List ℤ}
    {dtype : Dtype} {role : Role}
    (hj : ((makes q).filterMap Make.srcOf)[j]? = some (prod, dtype, role)) (hlists : role.Lists)
    (hone : role = .pipe → prod.length = 1)
    (c : ℤ → ℕ) (ch : ℤ → SinkChan ℤ)
    (hch : ∀ x ∈ prod, ((wired makes).chans x).sinks[c x]? = some (ch x))
    (hq : ∀ x ∈ prod, q ∈ (ch x).plist)
    (hord : ∀ x ∈ prod, ordinal ((((makes q).filterMap Make.srcOf).take j).map Prod.fst) x =
      ordinal (((makes x).filterMap Make.consOf).take (c x)) q)
    (loc : List Byte) (du : ℤ) (hroom : prod.length * sizeMul dtype.bytes du.toNat ≤ loc.length)
    (hdu : 1 ≤ du) (next : List Byte → Task R) :
    AtGet (wired makes) q ((Task.get j loc du).bind next)
      ⟨j, ⟨role, prod.map fun p =>
        (p, ordinal ((((makes q).filterMap Make.srcOf).take j).map Prod.fst) p), dtype⟩,
        prod.map fun x => (x, c x, Conf.node (ch x) q), loc, du⟩ next where
  state := rfl
  chan := wired_srcs hgood hj
  lists := hlists
  one hrole := by
    rw [List.length_map]
    exact hone hrole
  found := by
    dsimp only
    rw [List.map_map, List.map_map]
    refine List.map_congr_left fun x hx => ?_
    rw [Function.comp_apply, hord x hx]
    exact bufOf_wired hgood (hch x hx) (hq x hx)
  nodup := by
    obtain ⟨m, hm, hsrc⟩ := List.mem_filterMap.mp (List.mem_of_getElem? hj)
    have hnodup := (hgood q m hm).nodup
    cases m with
    | sink => cases hsrc
    | src prod' dtype' role' =>
      obtain ⟨rfl, -⟩ := Prod.mk.inj (Option.some.inj hsrc)
      exact List.Nodup.map (fun x y heq => (Prod.mk.inj heq).1) hnodup
  room := by
    rw [Getting.size, List.length_map]
    exact hroom
  pos := hdu

/-- A get from a pipe. -/
theorem atGet_pipe {R : Type} (hgood : ∀ p, ∀ m ∈ makes p, m.Good p) {j c : ℕ} {dtype : Dtype}
    {ch : SinkChan ℤ} (hj : ((makes q).filterMap Make.srcOf)[j]? = some ([p], dtype, .pipe))
    (hch : ((makes p).filterMap Make.sinkChan)[c]? = some ch) (hq : q ∈ ch.plist)
    (hord : ordinal ((((makes q).filterMap Make.srcOf).take j).map Prod.fst) p =
      ordinal (((makes p).filterMap Make.consOf).take c) q)
    (loc : List Byte) (du : ℤ) (hroom : sizeMul dtype.bytes du.toNat ≤ loc.length) (hdu : 1 ≤ du)
    (next : List Byte → Task R) :
    AtGet (wired makes) q ((Task.get j loc du).bind next)
      ⟨j, ⟨.pipe, [(p, ordinal ((((makes q).filterMap Make.srcOf).take j).map Prod.fst) p)], dtype⟩,
        [(p, c, Conf.node ch q)], loc, du⟩ next :=
  atGet_wired hgood hj (.inl rfl) (fun _ => rfl) (fun _ => c) (fun _ => ch)
    (fun x hx => by
      obtain rfl := List.mem_singleton.mp hx
      exact hch)
    (fun _ _ => hq)
    (fun x hx => by
      obtain rfl := List.mem_singleton.mp hx
      exact hord)
    loc du (by rwa [List.length_singleton, Nat.one_mul]) hdu next

/-- **The ends of every link have data types of one size**: the sink and the source with the same
ordinal. -/
def Typed (makes : ℤ → List Make) : Prop :=
  ∀ p q c j ch prod dtype role, ((makes p).filterMap Make.sinkChan)[c]? = some ch → q ∈ ch.plist →
    ((makes q).filterMap Make.srcOf)[j]? = some (prod, dtype, role) → p ∈ prod →
    ordinal ((((makes q).filterMap Make.srcOf).take j).map Prod.fst) p =
      ordinal (((makes p).filterMap Make.consOf).take c) q → ch.dtype.bytes = dtype.bytes

theorem typed_of_eq {dtype : Dtype} (h : ∀ p, ∀ m ∈ makes p, m.dtype = dtype) : Typed makes := by
  intro p q c j ch prod dtype' role hc _ hj _ _
  obtain ⟨m, hm, hsink⟩ := List.mem_filterMap.mp (List.mem_of_getElem? hc)
  obtain ⟨m', hm', hsrc⟩ := List.mem_filterMap.mp (List.mem_of_getElem? hj)
  have hmd := h p m hm
  have hmd' := h q m' hm'
  cases m with
  | src => cases hsink
  | sink cons d bunits r =>
    cases m' with
    | sink => cases hsrc
    | src prod' d' r' =>
      obtain rfl := Option.some.inj hsink
      obtain ⟨-, h⟩ := Prod.mk.inj (Option.some.inj hsrc)
      obtain ⟨rfl, -⟩ := Prod.mk.inj h
      exact congrArg Dtype.bytes (hmd.trans hmd'.symm)

/-- What is known of a sink. -/
theorem good_of_sink (hgood : ∀ p, ∀ m ∈ makes p, m.Good p) {ch : SinkChan ℤ}
    (hch : ch ∈ ((wired makes).chans p).sinks) :
    ch.plist.Nodup ∧ p ∉ ch.plist ∧ ch.role ∈ [.pipe, .replicate, .spread] ∧
      (ch.role = .pipe → ch.plist.length ≤ 1) := by
  obtain ⟨m, hm, hsink⟩ := List.mem_filterMap.mp hch
  obtain ⟨hnodup, hapart, hcopies⟩ := hgood p m hm
  cases m with
  | src => cases hsink
  | sink cons dtype bunits role =>
    obtain rfl := Option.some.inj hsink
    exact ⟨hnodup, hapart, hcopies⟩

/-- What is known of a source. -/
theorem good_of_src (hgood : ∀ p, ∀ m ∈ makes p, m.Good p) {src : Src ℤ}
    (hsrc : src ∈ ((wired makes).chans q).srcs) :
    (∃ (j : ℕ) (prod : List ℤ), ((makes q).filterMap Make.srcOf)[j]? =
        some (prod, src.dtype, src.role) ∧
      src.links = prod.map fun p =>
        (p, ordinal ((((makes q).filterMap Make.srcOf).take j).map Prod.fst) p)) ∧
      (∀ x ∈ src.links, x.1 ≠ q) ∧ src.role ∈
        [.pipe, .collect, .reduceSum, .reduceMul, .reduceMax, .reduceMin, .reduceMinmax] := by
  obtain ⟨j, hj⟩ := List.getElem?_of_mem hsrc
  have hlen : j < ((makes q).filterMap Make.srcOf).length := by
    have hlt := (List.getElem?_eq_some_iff.mp hj).1
    rw [wired, List.length_zipWith] at hlt
    omega
  obtain ⟨⟨prod, dtype, role⟩, hx⟩ : ∃ x, ((makes q).filterMap Make.srcOf)[j]? = some x :=
    ⟨_, List.getElem?_eq_getElem hlen⟩
  rw [wired_srcs hgood hx] at hj
  obtain rfl := Option.some.inj hj
  obtain ⟨m, hm, hm'⟩ := List.mem_filterMap.mp (List.mem_of_getElem? hx)
  obtain ⟨-, hapart, hcopies⟩ := hgood q m hm
  cases m with
  | sink => cases hm'
  | src prod' dtype' role' =>
    obtain ⟨rfl, h⟩ := Prod.mk.inj (Option.some.inj hm')
    obtain ⟨rfl, rfl⟩ := Prod.mk.inj h
    refine ⟨⟨j, _, hx, rfl⟩, fun x hx => ?_, hcopies⟩
    obtain ⟨p, hp, rfl⟩ := List.mem_map.mp hx
    exact fun heq => hapart (heq ▸ hp)

/-- **Such channels are read in order.** -/
theorem ordered_wired (hgood : ∀ p, ∀ m ∈ makes p, m.Good p) (htyped : Typed makes) :
    (wired makes).Ordered where
  matched p q src tag link hsrc hlink hfind := by
    have htag : link.tag = tag := by simpa using List.find?_some hfind
    have hnth : IsNth (made (makes p)).sinks q link.tag link.channel := by
      obtain ⟨tag', channel⟩ := link
      subst htag
      exact (find?_wired hgood).mp hfind
    have hmade := complete_made fun m hm => (hgood p m hm).nodup
    obtain ⟨chan, hchan, hq⟩ := hnth.named
    have hlist : (((makes p).filterMap Make.sinkChan)[link.channel]?).map SinkChan.plist =
        some chan.plist := by
      rw [← List.getElem?_map, map_plist_sinks, ← hmade.sinks, List.getElem?_map, hchan,
        Option.map_some]
    obtain ⟨ch, hch, hplist⟩ := Option.map_eq_some_iff.mp hlist
    obtain ⟨⟨j, prod, hj, hlinks⟩, -⟩ := good_of_src hgood hsrc
    rw [hlinks] at hlink
    obtain ⟨p', hp', heq⟩ := List.mem_map.mp hlink
    obtain ⟨rfl, rfl⟩ := Prod.mk.inj heq
    refine ⟨ch, hch, htyped _ q _ j ch prod _ _ hch (hplist ▸ hq) hj hp' ?_, hplist ▸ hq⟩
    rw [← htag, ← hmade.sinks, ← List.map_take, ← naming_eq_ordinal, hnth.before]
  sinks p ch hch := (good_of_sink hgood hch).2.2.1
  srcs q src hsrc := (good_of_src hgood hsrc).2.2

theorem oneToOne_wired (hgood : ∀ p, ∀ m ∈ makes p, m.Good p) : (wired makes).OneToOne := by
  intro p ch hch hrole q hq q' hq'
  have hlen := (good_of_sink hgood hch).2.2.2 hrole
  obtain ⟨role, plist, dtype', dunits⟩ := ch
  rcases plist with _ | ⟨x, _ | ⟨y, plist⟩⟩
  · cases hq
  · rw [List.mem_singleton.mp hq, List.mem_singleton.mp hq']
  · simp at hlen

theorem apart_wired (hgood : ∀ p, ∀ m ∈ makes p, m.Good p) : (wired makes).Apart := by
  intro q x hx
  obtain ⟨src, hsrc, hx⟩ := List.mem_flatMap.mp hx
  exact (good_of_src hgood hsrc).2.1 x hx

end Wired

end Libdsys
