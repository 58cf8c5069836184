import Mathlib.Data.Nat.ModEq
import Libdsys.Queue.NoCopy

/-!
# Queue/Nmc12m — no-copy one-to-many delivery

`__bc_internal_nmc12m_put` and `__bc_internal_nmc12m_send` of `queue.c`, as the lock sections of
`Queue/NoCopy`.  A reader's test looks at one counter and at one inequality of indices.  That it is
exact is the content of `Nmc12m.Rep`: slot `j % du` holds unit `j` and its counter the number of
links that have not read it, for every unit still in the window — whatever `rc[0]` held at first.

* `nmc12m_refines` — each section is the log's.
* `nmc12m_delivers` — the units of a consumer are a prefix of the committed ones, a send is ready
  exactly when one that was released is unread, and the producer's slot has no reader left.
-/

open Machinery

namespace Libdsys

/-! ## The queue -/

/-- `bc_nmc12m_t`, without its lock and condition variable. -/
structure Nmc12m where
  /-- The reference counters, `unsigned short`. -/
  rc : List ℕ
  /-- The block at `start`. -/
  mem : List Byte
  /-- End of the block. -/
  memEnd : ℕ
  /-- Size of a unit, in bytes. -/
  size : ℕ
  /-- How many units there are. -/
  du : ℕ
  vptr : Vptr
deriving Repr, DecidableEq

/-- `for (i = du - 1; i; i--) rc[i] = 0`, with `i` still to do. -/
def clearRc (rc : List ℕ) : ℕ → List ℕ
  | 0 => rc
  | i + 1 => clearRc (rc.set (i + 1) 0) i

/-- `__bc_internal_nmc12m_create`: `rawMem` and `rawRc` are what the two new blocks happen to
hold. -/
def internalNmc12mCreate (rawMem : ℕ → Byte) (rawRc : ℕ → ℕ) (du bytes : ℕ) : Nmc12m where
  rc := clearRc ((List.range du).map rawRc) (du - 1)
  mem := (List.range (sizeMul bytes du)).map rawMem
  memEnd := sizeMul bytes du
  size := bytes
  du := du
  vptr := ⟨0, 0⟩

/-- What a link's `vptr` is set to by `__bc_link_insert`. -/
def linkVptr : Vptr := ⟨0, 0⟩

/-- The next slot's address: past the last one comes the first. -/
def advance (var size memEnd : ℕ) : ℕ := if var + size = memEnd then 0 else var + size

/-- The producer stores `bs` through its variable pointer. -/
def nmc12mFill (q : Nmc12m) (off : ℕ) (bs : List Byte) : Option Nmc12m :=
  if off + bs.length ≤ q.size then
    (writeAt q.mem (q.vptr.var + off) bs).map fun mem => { q with mem }
  else
    none

/-- `__bc_internal_nmc12m_put` up to its loop, with the index `i` the loop tests.  The count is
stored in an `unsigned short`. -/
def nmc12mPutEnter (q : Nmc12m) (c : ℕ) : Option (Nmc12m × ℕ) :=
  if q.vptr.rcidx < q.rc.length then
    some ({ q with
        rc := q.rc.set q.vptr.rcidx (c % 2 ^ 16)
        vptr := ⟨advance q.vptr.var q.size q.memEnd, q.vptr.rcidx⟩ },
      (q.vptr.rcidx + 1) % q.du)
  else
    none

/-- The loop of `__bc_internal_nmc12m_put`, once through. -/
def nmc12mPutCheck (q : Nmc12m) (i : ℕ) : Option (Option Nmc12m) :=
  (q.rc[i]?).map fun n =>
    if n = 0 then some { q with vptr := ⟨q.vptr.var, i⟩ } else none

/-- `__bc_internal_nmc12m_send`, one lock section, with the link's `vptr` after it. -/
def nmc12mSend (q : Nmc12m) (fd : List Byte) (vptr : Vptr) (condRecv : Bool) :
    Option (SendOutcome (Nmc12m × Vptr)) := do
  let n ← q.rc[vptr.rcidx]?
  if n ≠ 0 ∧ q.vptr.rcidx ≠ vptr.rcidx then
    let fd := if condRecv then sendPreambleMessage fd else fd
    let fd ← writeData fd q.mem vptr.var q.size
    return .sent ({ q with rc := q.rc.set vptr.rcidx (n - 1) },
      ⟨advance vptr.var q.size q.memEnd, (vptr.rcidx + 1) % q.du⟩) fd
  else if condRecv then
    return .refused (sendSorryMessage fd)
  else
    return .wait

/-- A queue and the `vptr`s of the links that share it. -/
abbrev Linked (ι : Type) := Nmc12m × (ι → Vptr)

/-- The lock sections, each service thread with its link. -/
def nmc12mOps (ι : Type) [DecidableEq ι] : SlotOps (Linked ι) ι where
  slotUnit s := readAt s.1.mem s.1.vptr.var s.1.size
  fill s off bs := (nmc12mFill s.1 off bs).map fun q => (q, s.2)
  putEnter s c := (nmc12mPutEnter s.1 c).map fun (q, i) => ((q, s.2), i)
  putCheck s i := (nmc12mPutCheck s.1 i).map (Option.map fun q => (q, s.2))
  send s k fd condRecv := (nmc12mSend s.1 fd (s.2 k) condRecv).map fun
    | .sent (q, vptr) fd => .sent (q, Function.update s.2 k vptr) fd
    | .refused fd => .refused fd
    | .wait => .wait

/-! ## Slots and residues -/

theorem mod_ne_mod_of_lt {a b du : ℕ} (hlt : a < b) (hb : b < a + du) : a % du ≠ b % du := by
  intro h
  have hdvd : du ∣ b - a := (Nat.modEq_iff_dvd' hlt.le).mp h
  have := Nat.le_of_dvd (Nat.sub_pos_of_lt hlt) hdvd
  omega

theorem slot_disjoint {a b : ℕ} (size : ℕ) (h : a ≠ b) :
    a * size + size ≤ b * size ∨ b * size + size ≤ a * size := by
  rcases lt_or_gt_of_ne h with hlt | hgt
  · exact .inl (by rw [← Nat.succ_mul]; exact Nat.mul_le_mul_right size hlt)
  · exact .inr (by rw [← Nat.succ_mul]; exact Nat.mul_le_mul_right size hgt)

theorem slot_le {a du : ℕ} (size : ℕ) (h : a < du) : a * size + size ≤ du * size := by
  rw [← Nat.succ_mul]
  exact Nat.mul_le_mul_right size h

/-- Addresses wrap where indices do. -/
theorem advance_slot {j du : ℕ} (hdu : 0 < du) (size : ℕ) :
    advance (j % du * size) size (du * size) = (j + 1) % du * size := by
  rcases Nat.eq_zero_or_pos size with rfl | hsize
  · rfl
  have hj : j % du + 1 ≤ du := Nat.mod_lt j hdu
  rw [advance, ← Nat.succ_mul, Nat.succ_eq_add_one, ← Nat.mod_add_mod]
  rcases Nat.eq_or_lt_of_le hj with hlast | hlt
  · rw [hlast, if_pos rfl, Nat.mod_self, Nat.zero_mul]
  · rw [if_neg fun h => hlt.ne (Nat.eq_of_mul_eq_mul_right hsize h), Nat.mod_eq_of_lt hlt]

/-- Clearing reaches every counter but the first. -/
theorem getElem?_clearRc (rc : List ℕ) (i s : ℕ) :
    (clearRc rc i)[s]? = if 1 ≤ s ∧ s ≤ i ∧ s < rc.length then some 0 else rc[s]? := by
  induction i generalizing rc with
  | zero => rw [clearRc, if_neg (by omega)]
  | succ i ih =>
    rw [clearRc, ih, List.length_set, List.getElem?_set]
    split_ifs <;> first | rfl | omega | (rw [List.getElem?_eq_none]; omega)

@[simp] theorem length_clearRc (rc : List ℕ) (i : ℕ) : (clearRc rc i).length = rc.length := by
  induction i generalizing rc with
  | zero => rfl
  | succ i ih => rw [clearRc, ih, List.length_set]

/-- **A send that finds its counter up and the producer elsewhere** writes the unit at its link. -/
theorem nmc12mSend_eq {q : Nmc12m} {vptr : Vptr} {n : ℕ} (hn : q.rc[vptr.rcidx]? = some n)
    (hpos : n ≠ 0) (hne : q.vptr.rcidx ≠ vptr.rcidx) (hin : vptr.var + q.size ≤ q.mem.length)
    (fd : List Byte) (condRecv : Bool) :
    nmc12mSend q fd vptr condRecv = some (.sent
      ({ q with rc := q.rc.set vptr.rcidx (n - 1) },
        ⟨advance vptr.var q.size q.memEnd, (vptr.rcidx + 1) % q.du⟩)
      (fd ++ preamble condRecv ++ (q.mem.drop vptr.var).take q.size)) := by
  simp only [nmc12mSend, hn, Option.bind_eq_bind, Option.bind_some, ite_sendPreambleMessage]
  rw [if_pos ⟨hpos, hne⟩, writeData_eq hin, Option.bind_some]
  rfl

/-! ## The representation -/

namespace Nmc12m

variable {ι : Type} {du size : ℕ} {q : Nmc12m} {link : ι → Vptr} {l : SlotLog (List Byte) ι}

/-- Unit `j` is in the window: its slot has not been given back to the producer. -/
structure InWindow (du : ℕ) (l : SlotLog (List Byte) ι) (j : ℕ) : Prop where
  lt : j < l.items.length
  le : l.items.length + (!l.held).toNat ≤ j + du

theorem InWindow.mod_ne {j : ℕ} (hj : InWindow du l j) {i : ℕ} (hi : InWindow du l i)
    (hne : j ≠ i) : j % du ≠ i % du := by
  obtain ⟨hj, hj'⟩ := hj
  obtain ⟨hi, hi'⟩ := hi
  rcases lt_or_gt_of_ne hne with hlt | hgt
  · exact mod_ne_mod_of_lt hlt (by omega)
  · exact (mod_ne_mod_of_lt hgt (by omega)).symm

/-- The slot of the next unit holds none in the window, unless the log is held. -/
theorem InWindow.mod_ne_length {j : ℕ} (hj : InWindow du l j) (hheld : l.held = false) :
    j % du ≠ l.items.length % du := by
  obtain ⟨hj, hj'⟩ := hj
  rw [hheld] at hj'
  exact mod_ne_mod_of_lt hj hj'

/-- An unread released unit is in the window. -/
theorem inWindow_read (h : l.Wf du) {k : ι} (hk : l.read k < l.released) :
    InWindow du l (l.read k) := by
  refine ⟨hk.trans_le SlotLog.released_le, ?_⟩
  cases hheld : l.held with
  | true => exact h.room k
  | false => exact h.free hheld k

/-- The window after a commit: the new unit and the old ones. -/
theorem inWindow_commit (hheld : l.held = false) {u : List Byte} {j : ℕ}
    (hj : InWindow du (l.commit u) j) : InWindow du l j ∨ j = l.items.length := by
  obtain ⟨hj, hj'⟩ := hj
  rw [SlotLog.length_items_commit] at hj hj'
  rcases Nat.lt_succ_iff_lt_or_eq.mp hj with hlt | rfl
  · refine .inl ⟨hlt, ?_⟩
    rw [hheld]
    exact hj'
  · exact .inr rfl

theorem inWindow_take [DecidableEq ι] {k : ι} {j : ℕ} (hj : InWindow du (l.take k) j) :
    InWindow du l j := ⟨hj.lt, hj.le⟩

theorem inWindow_release (hheld : l.held = true) {j : ℕ} (hj : InWindow du l.release j) :
    InWindow du l j := by
  refine ⟨hj.lt, ?_⟩
  rw [hheld]
  exact (Nat.le_succ _).trans hj.le

variable [Fintype ι]

/-- **The representation invariant.**  The producer's index stays on a held unit while its address
has moved on. -/
structure Rep (du size : ℕ) (q : Nmc12m) (link : ι → Vptr) (l : SlotLog (List Byte) ι) : Prop where
  wf : l.Wf du
  qdu : q.du = du
  qsize : q.size = size
  len : q.mem.length = du * size
  ends : q.memEnd = du * size
  rclen : du ≤ q.rc.length
  rcidx : q.vptr.rcidx = l.released % du
  var : q.vptr.var = l.items.length % du * size
  link_eq : ∀ k, link k = ⟨l.read k % du * size, l.read k % du⟩
  slot : ∀ j, InWindow du l j → l.items[j]? = some ((q.mem.drop (j % du * size)).take size)
  count : ∀ j, InWindow du l j → q.rc[j % du]? = some (l.pending j)
  fresh : ∀ s, l.items.length ≤ s → s < du → 1 ≤ s → q.rc[s]? = some 0
  next : l.held = false → 0 < l.items.length → q.rc[l.items.length % du]? = some 0

/-- A fresh queue whose block has all its slots represents the empty log. -/
theorem rep_create (rawMem : ℕ → Byte) (rawRc : ℕ → ℕ) (hdu : 0 < du) (hfits : du * size < 2 ^ 64) :
    Rep du size (internalNmc12mCreate rawMem rawRc du size) (fun _ : ι => linkVptr)
      (SlotLog.empty _ ι) where
  wf := SlotLog.wf_empty hdu
  qdu := rfl
  qsize := rfl
  len := by simp [internalNmc12mCreate, sizeMul_units hfits]
  ends := sizeMul_units hfits
  rclen := by simp [internalNmc12mCreate]
  rcidx := (Nat.zero_mod du).symm
  var := by simp [internalNmc12mCreate, SlotLog.empty]
  link_eq k := by simp [linkVptr, SlotLog.empty]
  slot j hj := absurd hj.lt (Nat.not_lt_zero j)
  count j hj := absurd hj.lt (Nat.not_lt_zero j)
  fresh s _ hs hpos := by
    rw [internalNmc12mCreate, getElem?_clearRc, if_pos (by simp; omega)]
  next _ hpos := absurd hpos (Nat.not_lt_zero 0)

namespace Rep

variable (h : Rep du size q link l)

include h

theorem rcidx_lt (j : ℕ) : j % du < q.rc.length := (Nat.mod_lt _ h.wf.pos).trans_le h.rclen

theorem slot_in (j : ℕ) : j % du * size + size ≤ q.mem.length := by
  rw [h.len]
  exact slot_le size (Nat.mod_lt _ h.wf.pos)

/-- The producer fills the slot of the next unit, and no other. -/
theorem fill (hheld : l.held = false) {off : ℕ} {bs : List Byte} {q' : Nmc12m}
    (hq : nmc12mFill q off bs = some q') : Rep du size q' link l := by
  rw [nmc12mFill, h.qsize] at hq
  split at hq
  case isFalse => exact nomatch hq
  rename_i hin
  have hslot := h.slot_in l.items.length
  rw [writeAt_eq_some (by rw [h.var]; omega), Option.map_some, Option.some.injEq] at hq
  subst hq
  refine { h with qsize := rfl, len := ?_, slot := fun j hj => ?_ }
  · rw [← h.len]
    exact length_overlay (by rw [h.var]; omega)
  · rw [h.slot j hj]
    refine congrArg some (Eq.symm ?_)
    refine take_drop_overlay_of_disjoint (by rw [h.var]; omega) ?_
    rw [h.var]
    rcases slot_disjoint size (hj.mod_ne_length hheld) with hlo | hhi <;> omega

/-- **Entering a put commits the unit in the slot.** -/
theorem enter (hheld : l.held = false) (hcard : Fintype.card ι < 2 ^ 16) :
    ∃ u q', readAt q.mem q.vptr.var q.size = some u ∧
      nmc12mPutEnter q (Fintype.card ι) = some (q', (l.items.length + 1) % du) ∧
      Rep du size q' link (l.commit u) := by
  have hslot := h.slot_in l.items.length
  have hidx : q.vptr.rcidx = l.items.length % du := by
    rw [h.rcidx, SlotLog.released_of_not_held hheld]
  refine ⟨(q.mem.drop q.vptr.var).take q.size,
    { q with
      rc := q.rc.set q.vptr.rcidx (Fintype.card ι % 2 ^ 16)
      vptr := ⟨advance q.vptr.var q.size q.memEnd, q.vptr.rcidx⟩ },
    readAt_eq_some (by rw [h.var, h.qsize]; exact hslot), ?_, ?_⟩
  · rw [nmc12mPutEnter, if_pos (by rw [hidx]; exact h.rcidx_lt _), hidx, h.qdu, Nat.mod_add_mod]
  · refine
      { wf := h.wf.commit hheld _
        qdu := h.qdu
        qsize := h.qsize
        len := h.len
        ends := h.ends
        rclen := by simpa using h.rclen
        rcidx := ?_
        var := ?_
        link_eq := h.link_eq
        slot := fun j hj => ?_
        count := fun j hj => ?_
        fresh := fun s hs hlt hpos => ?_
        next := fun hf => Bool.noConfusion hf }
    · rw [SlotLog.released_commit]
      exact hidx
    · rw [SlotLog.length_items_commit]
      change advance q.vptr.var q.size q.memEnd = _
      rw [h.var, h.qsize, h.ends, advance_slot h.wf.pos]
    · rcases inWindow_commit hheld hj with hold | rfl
      · exact (List.getElem?_append_left hold.lt).trans (h.slot j hold)
      · refine List.getElem?_concat_length.trans ?_
        rw [h.var, h.qsize]
    · rcases inWindow_commit hheld hj with hold | rfl
      · rw [List.getElem?_set_ne (by rw [hidx]; exact (hold.mod_ne_length hheld).symm)]
        exact h.count j hold
      · rw [hidx, List.getElem?_set_self (h.rcidx_lt _), Nat.mod_eq_of_lt hcard]
        exact congrArg some h.wf.pending_length.symm
    · rw [SlotLog.length_items_commit] at hs
      rw [List.getElem?_set_ne (by rw [hidx, Nat.mod_eq_of_lt (by omega)]; omega)]
      exact h.fresh s (by omega) hlt hpos

/-- **The test of a put is exact**: the counter it looks at is zero exactly when the next slot is
free. -/
theorem rc_next (hheld : l.held = true) :
    ∃ n, q.rc[l.items.length % du]? = some n ∧ (n = 0 ↔ l.Free du) := by
  rcases lt_or_ge l.items.length du with hlt | hge
  · refine ⟨0, ?_, iff_of_true rfl fun k => hlt.trans_le (Nat.le_add_left _ _)⟩
    rw [Nat.mod_eq_of_lt hlt]
    exact h.fresh _ le_rfl hlt (h.wf.held_ne_nil hheld)
  · have hwin : InWindow du l (l.items.length - du) := by
      refine ⟨Nat.sub_lt (h.wf.held_ne_nil hheld) h.wf.pos, ?_⟩
      rw [hheld, Nat.sub_add_cancel hge]
      exact le_rfl
    refine ⟨l.pending (l.items.length - du), ?_,
      SlotLog.pending_eq_zero_iff.trans (forall_congr' fun k => ?_)⟩
    · rw [← h.count _ hwin, ← Nat.mod_eq_sub_mod hge]
    · exact ⟨fun hk => by omega, fun hk => by omega⟩

theorem check_free (hheld : l.held = true) (hfree : l.Free du) :
    ∃ q', nmc12mPutCheck q (l.items.length % du) = some (some q') ∧
      Rep du size q' link l.release := by
  obtain ⟨n, hn, hiff⟩ := h.rc_next hheld
  refine ⟨{ q with vptr := ⟨q.vptr.var, l.items.length % du⟩ },
    by rw [nmc12mPutCheck, hn, Option.map_some, if_pos (hiff.mpr hfree)], ?_⟩
  exact
    { h with
      wf := h.wf.release hfree
      rcidx := by rw [SlotLog.released_release]
      slot := fun j hj => h.slot j (inWindow_release hheld hj)
      count := fun j hj => h.count j (inWindow_release hheld hj)
      next := fun _ _ => hn.trans (congrArg some (hiff.mpr hfree)) }

theorem check_wait (hheld : l.held = true) (hfree : ¬ l.Free du) :
    nmc12mPutCheck q (l.items.length % du) = some none := by
  obtain ⟨n, hn, hiff⟩ := h.rc_next hheld
  rw [nmc12mPutCheck, hn, Option.map_some, if_neg fun h0 => hfree (hiff.mp h0)]

/-- **A ready send writes the next unit of its link.** -/
theorem send_ready [DecidableEq ι] {k : ι} (hk : l.read k < l.released)
    (hlt : l.read k < l.items.length) (fd : List Byte) (condRecv : Bool) :
    ∃ q' vptr, nmc12mSend q fd (link k) condRecv
        = some (.sent (q', vptr) (fd ++ preamble condRecv ++ l.items[l.read k])) ∧
      Rep du size q' (Function.update link k vptr) (l.take k) := by
  have hwin := inWindow_read h.wf hk
  have hpend : l.pending (l.read k) ≠ 0 := (SlotLog.pending_pos_iff.mpr ⟨k, le_rfl⟩).ne'
  have hidx : q.vptr.rcidx ≠ l.read k % du := by
    rw [h.rcidx]
    exact (mod_ne_mod_of_lt hk (h.wf.released_lt k)).symm
  refine ⟨{ q with rc := q.rc.set (link k).rcidx (l.pending (l.read k) - 1) },
    ⟨advance (link k).var q.size q.memEnd, ((link k).rcidx + 1) % q.du⟩, ?_, ?_⟩
  · have hunit := h.slot _ hwin
    rw [List.getElem?_eq_getElem hlt, Option.some.injEq] at hunit
    have hlink := h.link_eq k
    have hn : q.rc[(link k).rcidx]? = some (l.pending (l.read k)) := by
      rw [hlink]
      exact h.count _ hwin
    rw [nmc12mSend_eq hn hpend (by rw [hlink]; exact hidx)
      (by rw [hlink, h.qsize]; exact h.slot_in _), hunit, hlink, h.qsize]
  · refine
      { wf := h.wf.take hk
        qdu := h.qdu
        qsize := h.qsize
        len := h.len
        ends := h.ends
        rclen := by simpa using h.rclen
        rcidx := h.rcidx
        var := h.var
        link_eq := fun j => ?_
        slot := fun j hj => h.slot j (inWindow_take hj)
        count := fun j hj => ?_
        fresh := fun s hs hsdu hpos => ?_
        next := fun hheld hpos => ?_ }
    · rcases eq_or_ne j k with rfl | hne
      · rw [Function.update_self, SlotLog.read_take_self]
        simp only [h.link_eq, h.ends, h.qdu, h.qsize, advance_slot h.wf.pos, Nat.mod_add_mod]
      · rw [Function.update_of_ne hne, SlotLog.read_take_of_ne hne]
        exact h.link_eq j
    · rw [h.link_eq]
      rcases eq_or_ne j (l.read k) with rfl | hne
      · rw [List.getElem?_set_self (h.rcidx_lt _), SlotLog.pending_take_self]
      · rw [List.getElem?_set_ne (hwin.mod_ne (inWindow_take hj) hne.symm),
          SlotLog.pending_take_of_ne hne]
        exact h.count j (inWindow_take hj)
    · have hread : l.read k < s := hk.trans_le (SlotLog.released_le.trans hs)
      rw [h.link_eq, Nat.mod_eq_of_lt (hread.trans hsdu), List.getElem?_set_ne hread.ne]
      exact h.fresh s hs hsdu hpos
    · rw [h.link_eq]
      exact (List.getElem?_set_ne (hwin.mod_ne_length hheld)).trans (h.next hheld hpos)

/-- A send that is not ready finds its link on the producer's slot. -/
theorem send_not {k : ι} (hk : l.released ≤ l.read k) (fd : List Byte) (condRecv : Bool) :
    nmc12mSend q fd (link k) condRecv
      = some (if condRecv then .refused (fd ++ intBytes 0) else .wait) := by
  have hidx : q.vptr.rcidx = l.read k % du := by
    rw [h.rcidx, le_antisymm hk (h.wf.read_le k)]
  simp only [nmc12mSend, h.link_eq, Option.bind_eq_bind]
  rw [List.getElem?_eq_getElem (h.rcidx_lt _), Option.bind_some, if_neg fun hn => hn.2 hidx]
  cases condRecv <;> rfl

end Rep

end Nmc12m

/-! ## Blocks of one unit -/

theorem writeAt_block {mem u : List Byte} (h : mem.length = u.length) :
    writeAt mem 0 u = some u := by
  rw [writeAt_eq_some (by omega)]
  simp [overlay, ← h]

theorem readAt_block (u : List Byte) : readAt u 0 u.length = some u := by
  rw [readAt_eq_some (by omega)]
  simp

theorem clearRc_replicate (n i : ℕ) : clearRc (List.replicate n 0) i = List.replicate n 0 := by
  induction i with
  | zero => rfl
  | succ i ih => rw [clearRc, List.set_replicate_self, ih]

section OneUnit

variable {ι : Type} [DecidableEq ι] {link : ι → Vptr} {rc : List ℕ} {u v : List Byte} {du i : ℕ}

/-- In a block of one unit each put leads back to its start. -/
theorem nmc12m_puts {mem : List Byte} (c : ℕ) (hmem : mem.length = u.length) (hi : i + 1 < du)
    (hrc : i < rc.length) (hfree : rc[i + 1]? = some 0) :
    (nmc12mOps ι).Puts c (⟨rc, mem, u.length, u.length, du, ⟨0, i⟩⟩, link) u
      (⟨rc.set i (c % 2 ^ 16), u, u.length, u.length, du, ⟨0, i + 1⟩⟩, link) := by
  have hnext : (i + 1) % du = i + 1 := Nat.mod_eq_of_lt hi
  have hfree' : (rc.set i (c % 2 ^ 16))[i + 1]? = some 0 := by
    rw [List.getElem?_set_ne (Nat.succ_ne_self i).symm, hfree]
  refine ⟨(⟨rc, u, u.length, u.length, du, ⟨0, i⟩⟩, link),
    (⟨rc.set i (c % 2 ^ 16), u, u.length, u.length, du, ⟨0, i⟩⟩, link), i + 1, ?_,
    readAt_block u, ?_, ?_⟩
  · simp [nmc12mOps, nmc12mFill, writeAt_block hmem]
  · simp [nmc12mOps, nmc12mPutEnter, hrc, hnext, advance]
  · simp only [nmc12mOps, nmc12mPutCheck, hfree', Option.map_some, if_true]

/-- A send from the start of the block. -/
theorem nmc12m_sends {k : ι} {n size : ℕ} (hn : rc[(link k).rcidx]? = some n) (hpos : n ≠ 0)
    (hne : i ≠ (link k).rcidx) (hvar : (link k).var = 0) (hsize : size = u.length) :
    ∃ q, (nmc12mOps ι).send (⟨rc, u, size, size, du, ⟨0, i⟩⟩, link) k [] false =
      some (.sent q u) := by
  subst hsize
  have hsend := nmc12mSend_eq (q := ⟨rc, u, u.length, u.length, du, ⟨0, i⟩⟩) hn hpos hne
    (by rw [hvar]; exact (Nat.zero_add _).le) [] false
  simp only [hvar, preamble, Bool.false_eq_true, if_false, List.nil_append, List.drop_zero,
    List.take_length] at hsend
  exact ⟨_, congrArg (Option.map _) hsend⟩

/-- **Where the size of the block wraps to that of one unit**, the second unit is written over the
first, and sent in its place. -/
theorem overtaken_of_views {σ T : Type} [DecidableEq T] {ops : SlotOps σ T} {c m n : ℕ}
    {cur : T → ι} {view : σ → Linked ι} (V : Views ops c (nmc12mOps ι) m cur view) (t : T) {q : σ}
    (hq : view q = (⟨List.replicate n 0, List.replicate u.length 0, u.length, u.length, du, ⟨0, 0⟩⟩,
      fun _ => linkVptr))
    (hdu : 3 ≤ du) (hn : du ≤ n) (hm : m % 2 ^ 16 ≠ 0) (hv : v.length = u.length) :
    ∃ s, Reaches (NoCopy.step ops c) (NoCopy.start q) s ∧ s.replies = [⟨t, false, v⟩] ∧
      s.committed = [u, v] := by
  have hzero (s : ℕ) (hs : s < du) : (List.replicate n 0)[s]? = some 0 := by
    rw [List.getElem?_replicate, if_pos (hs.trans_le hn)]
  let rc := (List.replicate n 0).set 0 (m % 2 ^ 16)
  have hput : (nmc12mOps ι).Puts m (⟨List.replicate n 0, List.replicate u.length 0, u.length,
      u.length, du, ⟨0, 0⟩⟩, fun _ => linkVptr) u
      (⟨rc, u, u.length, u.length, du, ⟨0, 1⟩⟩, fun _ => linkVptr) :=
    nmc12m_puts m List.length_replicate (by omega) (by simp; omega) (hzero 1 (by omega))
  have hput' : (nmc12mOps ι).Puts m (⟨rc, u, v.length, v.length, du, ⟨0, 1⟩⟩, fun _ => linkVptr) v
      (⟨rc.set 1 (m % 2 ^ 16), v, v.length, v.length, du, ⟨0, 2⟩⟩, fun _ => linkVptr) :=
    nmc12m_puts m hv.symm (by omega) (by simp [rc]; omega)
      (by rw [List.getElem?_set_ne (by omega), hzero 2 (by omega)])
  rw [← hq] at hput
  obtain ⟨q₁, hput, hq₁⟩ := V.puts hput
  rw [hv, ← hq₁] at hput'
  obtain ⟨q₂, hput', hq₂⟩ := V.puts hput'
  have hcounter : (rc.set 1 (m % 2 ^ 16))[0]? = some (m % 2 ^ 16) := by
    rw [List.getElem?_set_ne one_ne_zero, List.getElem?_set_self (by simp; omega)]
  obtain ⟨r, hsend⟩ : ∃ r, (nmc12mOps ι).send (⟨rc.set 1 (m % 2 ^ 16), v, u.length, u.length, du,
      ⟨0, 2⟩⟩, fun _ => linkVptr) (cur t) [] false = some (.sent r v) :=
    nmc12m_sends hcounter hm (by decide) rfl hv.symm
  rw [← hq₂] at hsend
  obtain ⟨q₃, hsend, -⟩ := V.exists_sent hsend
  exact hput.overtaken hput' ⟨q₃, hsend⟩

end OneUnit

/-! ## Delivery -/

section Delivery

variable {ι : Type} [Fintype ι] [DecidableEq ι] {du size : ℕ}

/-- **A no-copy queue whose counters do not overflow refines the log**, a cursor for each link. -/
theorem nmc12m_refines (hcard : Fintype.card ι < 2 ^ 16) :
    Refines (nmc12mOps ι) (Fintype.card ι) du id fun s l => Nmc12m.Rep du size s.1 s.2 l where
  wf h := h.wf
  fill {s l off bs s'} h hheld hs := by
    obtain ⟨q', hq', rfl⟩ := Option.map_eq_some_iff.mp hs
    exact h.fill hheld hq'
  enter {s l} h hheld := by
    obtain ⟨u, q', hu, hq', hrep⟩ := h.enter hheld hcard
    exact ⟨u, (q', s.2), hu, by simp only [nmc12mOps, hq', Option.map_some], hrep⟩
  check_free {s l} h hheld hfree := by
    obtain ⟨q', hq', hrep⟩ := h.check_free hheld hfree
    exact ⟨(q', s.2), by simp only [nmc12mOps, hq', Option.map_some], hrep⟩
  check_wait h hheld hfree := by
    simp only [nmc12mOps, h.check_wait hheld hfree, Option.map_some, Option.map_none]
  send_ready {s l} k fd condRecv h hlt hk := by
    obtain ⟨q', vptr, hq', hrep⟩ := h.send_ready hk hlt fd condRecv
    exact ⟨(q', Function.update s.2 k vptr), congrArg (Option.map _) hq', hrep⟩
  send_wait k fd h hk := congrArg (Option.map _) (h.send_not hk fd false)
  send_refused k fd h hk := congrArg (Option.map _) (h.send_not hk fd true)

/-- A fresh queue, every link at slot 0. -/
def nmc12mStart (rawMem : ℕ → Byte) (rawRc : ℕ → ℕ) (du size : ℕ) (ι : Type) :
    NoCopy (Linked ι) ι :=
  NoCopy.start (internalNmc12mCreate rawMem rawRc du size, fun _ => linkVptr)

end Delivery

/-- **No-copy one-to-many delivery**, where the size of the block is a `size_t`.  Whatever the
threads' order, no lock section faults; what a consumer was sent is a prefix of the committed units;
a send finds data ready exactly when its consumer has not yet read every unit whose put has
returned; and when the producer is not inside a put, the slot at its pointer holds no released unit
that some consumer is still to read. -/
theorem nmc12m_delivers (rawMem : ℕ → Byte) (rawRc : ℕ → ℕ) (du size m : ℕ) (hdu : 1 ≤ du)
    (hfits : du * size < 2 ^ 64) (hm : m ≤ 65535) (s : NoCopy (Linked (Fin m)) (Fin m))
    (hs : Reaches (NoCopy.step (nmc12mOps (Fin m)) m)
      (nmc12mStart rawMem rawRc du size (Fin m)) s) :
    s.Faultless (nmc12mOps (Fin m)) m ∧
    ∀ k : Fin m,
      s.units id k <+: s.committed ∧
      (∀ condRecv, s.Ready (nmc12mOps (Fin m)) k condRecv ↔
        (s.units id k).length < s.returned) ∧
      s.store.2 k = ⟨(s.units id k).length % du * size, (s.units id k).length % du⟩ ∧
      (s.producer = .idle → (0 < s.returned → s.store.1.rc[s.store.1.vptr.rcidx]? = some 0) ∧
        s.store.1.vptr.var = s.store.1.vptr.rcidx * size ∧
        ∀ j, (s.units id k).length ≤ j → j < s.returned → j % du ≠ s.store.1.vptr.rcidx) := by
  have hcard : Fintype.card (Fin m) = m := Fintype.card_fin m
  have R : Refines (nmc12mOps (Fin m)) m du id fun q l => Nmc12m.Rep du size q.1 q.2 l := by
    have hR := @nmc12m_refines (Fin m) _ _ du size (by rw [hcard]; omega)
    rwa [hcard] at hR
  obtain ⟨l, hinv⟩ := R.reaches (Nmc12m.rep_create rawMem rawRc hdu hfits) hs
  refine ⟨R.faultless hinv, fun k => ⟨Refines.units_prefix hinv k, R.ready_iff hinv k, ?_⟩⟩
  have hrep := hinv.rep
  have hread : (s.units id k).length = l.read k := by
    rw [hinv.units, List.length_take_of_le ((hrep.wf.read_le k).trans SlotLog.released_le)]
  rw [hread]
  refine ⟨hrep.link_eq k, fun hidle => ?_⟩
  have hheld : l.held = false := by rw [hinv.held, hidle]; rfl
  have hret : s.returned = l.items.length := by
    rw [hinv.returned, SlotLog.released_of_not_held hheld]
  have hidx : s.store.1.vptr.rcidx = l.items.length % du := by
    rw [hrep.rcidx, SlotLog.released_of_not_held hheld]
  rw [hret, hidx]
  refine ⟨hrep.next hheld, hrep.var, fun j hle hlt => ?_⟩
  exact mod_ne_mod_of_lt hlt ((hrep.wf.free hheld k).trans_le (Nat.add_le_add_right hle du))

/-- Two consumers of a two-unit queue: one unit is committed, released and read by consumer 0. -/
theorem nmc12m_delivers_two : ∃ s : NoCopy (Linked (Fin 2)) (Fin 2),
    Reaches (NoCopy.step (nmc12mOps (Fin 2)) 2)
      (nmc12mStart (fun _ => 0) (fun _ => 7) 2 1 (Fin 2)) s ∧
    s.units id 0 = [[5]] ∧ s.units id 1 = [] ∧ s.units id 1 <+: s.committed := by
  have hrun : ∃ s, Machinery.run (NoCopy.step (nmc12mOps (Fin 2)) 2)
      (nmc12mStart (fun _ => 0) (fun _ => 7) 2 1 (Fin 2))
      [.fill 0 [5], .commit, .get 0 false] = some s ∧ s.units id 0 = [[5]] ∧ s.units id 1 = [] :=
    ⟨_, rfl, rfl, rfl⟩
  obtain ⟨s, hs, h0, h1⟩ := hrun
  exact ⟨s, ⟨_, hs⟩, h0, h1,
    ((nmc12m_delivers (fun _ => 0) (fun _ => 7) 2 1 2 (by decide) (by decide) (by decide) s
      ⟨_, hs⟩).2 1).1⟩

/-- Two units, where the block has room for one. -/
theorem nmc12m_overtaken {du : ℕ} (hdu : 3 ≤ du) {u v : List Byte}
    (hblock : sizeMul u.length du = u.length) (hv : v.length = u.length) :
    ∃ s, Reaches (NoCopy.step (nmc12mOps (Fin 1)) 1)
      (nmc12mStart (fun _ => 0) (fun _ => 0) du u.length (Fin 1)) s ∧
      s.replies = [⟨0, false, v⟩] ∧ s.committed = [u, v] := by
  refine overtaken_of_views (Views.refl _ 1) 0 (n := du) ?_ hdu le_rfl (by decide) hv
  simp [internalNmc12mCreate, hblock, clearRc_replicate]

/-- What is sent first of two such units is not the first of them. -/
theorem not_prefix_of_overtaken {n : ℕ} (hn : n ≠ 0) :
    ¬ [List.replicate n (2 : Byte)] <+: [List.replicate n 1, List.replicate n 2] := by
  intro hpre
  have heq := List.singleton_prefix_cons_iff.mp hpre
  exact absurd ((List.replicate_right_inj hn).mp heq) (by decide)

/-- The size of 2 ^ 30 + 1 units of 2 ^ 34 bytes wraps to that of one: a consumer is sent the second
unit first. -/
theorem nmc12m_unit_overwritten : ∃ s : NoCopy (Linked (Fin 1)) (Fin 1),
    Reaches (NoCopy.step (nmc12mOps (Fin 1)) 1)
      (nmc12mStart (fun _ => 0) (fun _ => 0) (2 ^ 30 + 1) (2 ^ 34) (Fin 1)) s ∧
    ¬ s.units id 0 <+: s.committed := by
  have h := @nmc12m_overtaken (2 ^ 30 + 1) (by decide) (List.replicate (2 ^ 34) 1)
    (List.replicate (2 ^ 34) 2)
    (by rw [List.length_replicate]; decide) (by rw [List.length_replicate, List.length_replicate])
  rw [List.length_replicate] at h
  obtain ⟨s, hs, hreplies, hcommitted⟩ := h
  refine ⟨s, hs, fun hpre => ?_⟩
  rw [NoCopy.units, hreplies, hcommitted] at hpre
  exact not_prefix_of_overtaken (by decide) hpre

end Libdsys
