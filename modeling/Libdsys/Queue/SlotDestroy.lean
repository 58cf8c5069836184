import Libdsys.Queue.Farmn

/-!
# Queue/SlotDestroy — whether a slot queue may be destroyed

`__bc_internal_nmc12m_destroy` and `__bc_internal_farmn_q_destroy` go through the counters before
they free the queue, and leave it alone if one of them is up.  The index runs from `du` down to 1,
the slots from `du - 1` down to 0: the first counter that is looked at is no slot's, and the one of
slot 0 is never looked at.

* `Counters` — the counters behind those of the slots are left as the block held them.
* `destroy_test_never` — no state of either queue is tested as it should be.
-/

open Machinery

namespace Libdsys

/-- How a destruction ends. -/
inductive DestroyEnd
  /-- The storage is released. -/
  | released
  /-- A counter is up, and nothing is done. -/
  | kept
  /-- A counter is looked at that is outside the block. -/
  | outside
deriving Repr, DecidableEq

/-- `for (i = du; i; i--) if (rc[i]) return 0;`, with `i` still to do: the counters it looks at, and
how it ends. -/
def scanRc (rc : List ℕ) : ℕ → List ℕ × DestroyEnd
  | 0 => ([], .released)
  | i + 1 =>
    match rc[i + 1]? with
    | none => ([i + 1], .outside)
    | some n => if n ≠ 0 then ([i + 1], .kept) else ((i + 1) :: (scanRc rc i).1, (scanRc rc i).2)

/-- `__bc_internal_nmc12m_destroy`, of a queue that is there. -/
def internalNmc12mDestroy (q : Nmc12m) : List ℕ × DestroyEnd := scanRc q.rc q.du

/-- `__bc_internal_farmn_q_destroy`, of a queue that is there. -/
def internalFarmnQDestroy (q : Farmn) : List ℕ × DestroyEnd := scanRc q.rc q.du

/-- **A destruction tests its slots**: it looks at the counters of the slots, and releases the
storage if and only if all of them are zero. -/
structure TestsSlots (rc : List ℕ) (du : ℕ) (out : List ℕ × DestroyEnd) : Prop where
  slots : ∀ i ∈ out.1, i < du
  all : out.2 = .released → ∀ i < du, i ∈ out.1
  released_iff : out.2 = .released ↔ ∀ i < du, rc[i]? = some 0

variable {rc : List ℕ} {du : ℕ}

/-- The first counter looked at is the one behind the slots. -/
theorem head_scanRc (hdu : 1 ≤ du) : (scanRc rc du).1.head? = some du := by
  obtain ⟨i, rfl⟩ := Nat.exists_eq_add_of_le' hdu
  rw [scanRc]
  split
  · rfl
  · split <;> rfl

/-- **The storage is released** where the counters from 1 to `du` are zero. -/
theorem scanRc_released_iff {i : ℕ} :
    (scanRc rc i).2 = .released ↔ ∀ j, 1 ≤ j → j ≤ i → rc[j]? = some 0 := by
  induction i with
  | zero =>
    exact iff_of_true rfl fun j hj hle => absurd (hj.trans hle) (Nat.not_succ_le_zero 0)
  | succ i ih =>
    rw [scanRc]
    constructor
    · intro h
      split at h
      · cases h
      · next n hn =>
        split at h
        · cases h
        · next hzero =>
          intro j hj hle
          rcases Nat.le_succ_iff.mp hle with hlt | rfl
          · exact ih.mp h j hj hlt
          · exact hn.trans (congrArg some (not_not.mp hzero))
    · intro h
      rw [h (i + 1) (Nat.succ_pos i) le_rfl]
      exact ih.mpr fun j hj hle => h j hj (Nat.le_succ_of_le hle)

/-- **No scan tests its slots.** -/
theorem not_testsSlots (hdu : 1 ≤ du) : ¬TestsSlots rc du (scanRc rc du) := fun h =>
  lt_irrefl du (h.slots du (List.mem_of_mem_head? (head_scanRc hdu)))

/-! ## The counters behind the slots -/

/-- **What no put and no send changes**: they write counters of slots. -/
structure Counters {ι : Type} (du : ℕ) (rc : List ℕ) (h : Option ℕ) (s : Linked ι) : Prop where
  qdu : s.1.du = du
  rcidx : s.1.vptr.rcidx < du
  link_lt : ∀ k, (s.2 k).rcidx < du
  index : ∀ i, h = some i → i < du
  behind : ∀ j, du ≤ j → s.1.rc[j]? = rc[j]?

/-- A slot's counter is none of those behind. -/
theorem Counters.set {ι : Type} {h : Option ℕ} {s : Linked ι} (hs : Counters du rc h s) {i : ℕ}
    (hi : i < du) (n : ℕ) : ∀ j, du ≤ j → (s.1.rc.set i n)[j]? = rc[j]? := fun j hj =>
  (List.getElem?_set_ne (hi.trans_le hj).ne).trans (hs.behind j hj)

theorem Counters.storeInvariant (ι : Type) [DecidableEq ι] (hdu : 1 ≤ du) (rc : List ℕ) (m : ℕ) :
    StoreInvariant (nmc12mOps ι) m (Counters du rc) where
  fill {s off bs s'} hs hfill := by
    obtain ⟨q, hq, rfl⟩ := Option.map_eq_some_iff.mp hfill
    rw [nmc12mFill] at hq
    split at hq
    · obtain ⟨mem, -, rfl⟩ := Option.map_eq_some_iff.mp hq
      exact ⟨hs.qdu, hs.rcidx, hs.link_lt, hs.index, hs.behind⟩
    · cases hq
  enter {s s' i} hs henter := by
    obtain ⟨⟨q, j⟩, hq, heq⟩ := Option.map_eq_some_iff.mp henter
    obtain ⟨rfl, rfl⟩ := Prod.mk.inj heq
    obtain ⟨-, hq⟩ := Option.ite_none_right_eq_some.mp hq
    obtain ⟨rfl, rfl⟩ := Prod.mk.inj (Option.some.inj hq)
    refine ⟨hs.qdu, hs.rcidx, hs.link_lt, fun i hi => ?_, hs.set hs.rcidx _⟩
    obtain rfl := Option.some.inj hi
    exact (Nat.mod_lt _ (hs.qdu ▸ hdu)).trans_eq hs.qdu
  check {s s' i} hs hcheck := by
    obtain ⟨o, ho, heq⟩ := Option.map_eq_some_iff.mp hcheck
    obtain ⟨q, rfl, rfl⟩ := Option.map_eq_some_iff.mp heq
    obtain ⟨n, -, hq⟩ := Option.map_eq_some_iff.mp ho
    obtain ⟨-, hq⟩ := Option.ite_none_right_eq_some.mp hq
    obtain rfl := Option.some.inj hq
    exact ⟨hs.qdu, hs.index i rfl, hs.link_lt, (by intro j hj; cases hj), hs.behind⟩
  send {h s k fd condRecv s' wrote} hs hsend := by
    obtain ⟨o, ho, heq⟩ := Option.map_eq_some_iff.mp hsend
    cases o with
    | refused _ | wait => cases heq
    | sent r fd' =>
      obtain ⟨rfl, rfl⟩ := SendOutcome.sent.inj heq
      rw [nmc12mSend, Option.bind_eq_bind] at ho
      obtain ⟨n, -, ho⟩ := Option.bind_eq_some_iff.mp ho
      split at ho
      case isFalse => cases condRecv <;> exact absurd ho (by simp)
      obtain ⟨w, -, ho⟩ := Option.bind_eq_some_iff.mp ho
      obtain ⟨rfl, -⟩ := SendOutcome.sent.inj (Option.some.inj ho)
      refine ⟨hs.qdu, hs.rcidx, fun j => ?_, hs.index, hs.set (hs.link_lt k) _⟩
      rcases eq_or_ne j k with rfl | hne
      · change (Function.update s.2 j _ j).rcidx < du
        rw [Function.update_self]
        exact (Nat.mod_lt _ (hs.qdu ▸ hdu)).trans_eq hs.qdu
      · change (Function.update s.2 k _ j).rcidx < du
        rw [Function.update_of_ne hne]
        exact hs.link_lt j

/-- A fresh queue, with counters from 1 to `du - 1` cleared. -/
theorem Counters.start {ι : Type} (hdu : 1 ≤ du) (rc : List ℕ) (mem : List Byte)
    (memEnd size : ℕ) : Counters du rc none
      ((⟨clearRc rc (du - 1), mem, memEnd, size, du, linkVptr⟩, fun _ => linkVptr) :
        Linked ι) where
  qdu := rfl
  rcidx := hdu
  link_lt _ := hdu
  index i hi := by cases hi
  behind j hj := (getElem?_clearRc _ _ _).trans (if_neg (by omega))

/-! ## Both queues -/

section Both

variable (rawMem : ℕ → Byte) (rawRc : ℕ → ℕ) (size : ℕ)

/-- The one-to-many queue looks outside its block. -/
theorem nmc12m_outside (hdu : 1 ≤ du) {m : ℕ} {s : NoCopy (Linked (Fin m)) (Fin m)}
    (hs : Reaches (NoCopy.step (nmc12mOps (Fin m)) m)
      (nmc12mStart rawMem rawRc du size (Fin m)) s) :
    s.store.1.du = du ∧ internalNmc12mDestroy s.store.1 = ([du], .outside) := by
  have hkept := ((Counters.storeInvariant (Fin m) hdu _ m).reaches
    (Counters.start hdu _ _ _ _) hs).store
  have hqdu := hkept.qdu
  have hoff : s.store.1.rc[du]? = none := by
    rw [hkept.behind du le_rfl, List.getElem?_eq_none_iff]
    simp
  obtain ⟨i, rfl⟩ := Nat.exists_eq_add_of_le' hdu
  rw [internalNmc12mDestroy, hqdu]
  exact ⟨rfl, by rw [scanRc, hoff]⟩

/-- The farm queue looks at a counter that nothing has written. -/
theorem farmn_released_iff (hdu : 1 ≤ du) {c w : ℕ} {s : NoCopy Farmn (Fin w)}
    (hs : Reaches (NoCopy.step (farmnOps (Fin w)) c) (farmnStart rawMem rawRc du size w) s) :
    s.store.du = du ∧ ((internalFarmnQDestroy s.store).2 = .released ↔
      rawRc du = 0 ∧ ∀ i, 1 ≤ i → i < du → s.store.rc[i]? = some 0) := by
  have hkept := (((farmn_views (Fin w) c).storeInvariant
    (Counters.storeInvariant Unit hdu _ 1)).reaches (Counters.start hdu _ _ _ _) hs).store
  have hqdu : s.store.du = du := hkept.qdu
  have hraw : s.store.rc[du]? = some (rawRc du) := by
    have hlt : du < 2 * du := by omega
    refine (hkept.behind du le_rfl).trans ?_
    rw [List.getElem?_map, List.getElem?_range hlt, Option.map_some]
  rw [internalFarmnQDestroy, hqdu, scanRc_released_iff]
  refine ⟨rfl, fun h => ⟨?_, fun i hi hlt => h i hi hlt.le⟩, fun h i hi hle => ?_⟩
  · exact Option.some.inj (hraw.symm.trans (h du hdu le_rfl))
  · rcases Nat.eq_or_lt_of_le hle with rfl | hlt
    · rw [hraw, h.1]
    · exact h.2 i hi hlt

end Both

/-- **No destruction tests its slots**, in no state that puts and sends lead to.  The one-to-many
queue looks at a counter outside its block before any other; the farm queue looks at one that
nothing has written, and releases its storage if that is zero and the slots but the first are. -/
theorem destroy_test_never (rawMem : ℕ → Byte) (rawRc : ℕ → ℕ) {du : ℕ} (hdu : 1 ≤ du)
    (size : ℕ) :
    (∀ m s, Reaches (NoCopy.step (nmc12mOps (Fin m)) m)
        (nmc12mStart rawMem rawRc du size (Fin m)) s →
      internalNmc12mDestroy s.store.1 = ([du], .outside) ∧
        ¬TestsSlots s.store.1.rc du (internalNmc12mDestroy s.store.1)) ∧
    ∀ c w s, Reaches (NoCopy.step (farmnOps (Fin w)) c) (farmnStart rawMem rawRc du size w) s →
      ((internalFarmnQDestroy s.store).2 = .released ↔
        rawRc du = 0 ∧ ∀ i, 1 ≤ i → i < du → s.store.rc[i]? = some 0) ∧
        ¬TestsSlots s.store.rc du (internalFarmnQDestroy s.store) := by
  constructor
  · intro m s hs
    obtain ⟨hqdu, hout⟩ := nmc12m_outside rawMem rawRc size hdu hs
    refine ⟨hout, ?_⟩
    rw [internalNmc12mDestroy, hqdu]
    exact not_testsSlots hdu
  · intro c w s hs
    obtain ⟨hqdu, hreleased⟩ := farmn_released_iff rawMem rawRc size hdu hs
    refine ⟨hreleased, ?_⟩
    rw [internalFarmnQDestroy, hqdu]
    exact not_testsSlots hdu

/-- A fresh farm queue of two units. -/
theorem destroy_test_never_two : ¬TestsSlots [0, 0, 0, 0] 2
    (internalFarmnQDestroy (farmnStart (fun _ => 0) (fun _ => 0) 2 1 1).store) :=
  ((destroy_test_never (fun _ => 0) (fun _ => 0) (show 1 ≤ 2 by decide) 1).2 1 1 _ (.refl _)).2

/-- **A unit that is pending in slot 0**: the storage is released under it. -/
theorem pending_unit_released : ∃ s, Reaches (NoCopy.step (farmnOps (Fin 1)) 1)
      (farmnStart (fun _ => 0) (fun _ => 0) 2 1 1) s ∧
    s.store.rc[0]? = some 1 ∧ internalFarmnQDestroy s.store = ([2, 1], .released) ∧
      ¬TestsSlots s.store.rc 2 (internalFarmnQDestroy s.store) :=
  ⟨_, ⟨[.commit], rfl⟩, rfl, rfl, not_testsSlots (by decide)⟩

end Libdsys
