import Libdsys.Queue.Nmc12m

/-!
# Queue/Farmn — the farm queue: one cursor for all workers

`__bc_internal_farmn_q_put` and `__bc_internal_farmn_q_send` of `queue.c`.  The consumer's pointer
is in the queue, every put sets its counter to 1, and a worker's own `vptr` is never looked at: a
farm queue is a no-copy queue with a single link (`Farmn.queue`), whoever calls.

* `farmn_refines` — so it refines a log with a single cursor.
* `farmn_exactly_once` — the units sent, over all workers, are a prefix of the committed ones.
-/

open Machinery

namespace Libdsys

/-- `bc_farmn_q_t`, without its lock and condition variable. -/
structure Farmn where
  /-- The slot counters, `unsigned short`. -/
  rc : List ℕ
  /-- The block at `start`. -/
  mem : List Byte
  /-- End of the block. -/
  memEnd : ℕ
  /-- Size of a unit, in bytes. -/
  size : ℕ
  /-- How many units there are. -/
  du : ℕ
  /-- The producer's pointer. -/
  pptr : Vptr
  /-- The consumers' pointer. -/
  cptr : Vptr
deriving Repr, DecidableEq

/-- `__bc_internal_farmn_q_create`.  The block of counters is allocated by bytes, `unsigned short`
each: it has twice the counters. -/
def internalFarmnQCreate (rawMem : ℕ → Byte) (rawRc : ℕ → ℕ) (du bytes : ℕ) : Farmn where
  rc := clearRc ((List.range (2 * du)).map rawRc) (du - 1)
  mem := (List.range (sizeMul bytes du)).map rawMem
  memEnd := sizeMul bytes du
  size := bytes
  du := du
  pptr := ⟨0, 0⟩
  cptr := ⟨0, 0⟩

/-- The producer stores `bs` through its variable pointer. -/
def farmnFill (q : Farmn) (off : ℕ) (bs : List Byte) : Option Farmn :=
  if off + bs.length ≤ q.size then
    (writeAt q.mem (q.pptr.var + off) bs).map fun mem => { q with mem }
  else
    none

/-- `__bc_internal_farmn_q_put` up to its loop, with the index `i` the loop tests.  The count it is
called with is not used. -/
def farmnQPutEnter (q : Farmn) (_c : ℕ) : Option (Farmn × ℕ) :=
  if q.pptr.rcidx < q.rc.length then
    some ({ q with
        rc := q.rc.set q.pptr.rcidx 1
        pptr := ⟨advance q.pptr.var q.size q.memEnd, q.pptr.rcidx⟩ },
      (q.pptr.rcidx + 1) % q.du)
  else
    none

/-- The loop of `__bc_internal_farmn_q_put`, once through. -/
def farmnQPutCheck (q : Farmn) (i : ℕ) : Option (Option Farmn) :=
  (q.rc[i]?).map fun n =>
    if n = 0 then some { q with pptr := ⟨q.pptr.var, i⟩ } else none

/-- `__bc_internal_farmn_q_send`, one lock section.  The caller's `vptr` is not used. -/
def farmnQSend (q : Farmn) (fd : List Byte) (condRecv : Bool) : Option (SendOutcome Farmn) := do
  let n ← q.rc[q.cptr.rcidx]?
  if n ≠ 0 ∧ q.pptr.rcidx ≠ q.cptr.rcidx then
    let fd := if condRecv then sendPreambleMessage fd else fd
    let fd ← writeData fd q.mem q.cptr.var q.size
    return .sent
      { q with
        rc := q.rc.set q.cptr.rcidx (n - 1)
        cptr := ⟨advance q.cptr.var q.size q.memEnd, (q.cptr.rcidx + 1) % q.du⟩ } fd
  else if condRecv then
    return .refused (sendSorryMessage fd)
  else
    return .wait

/-- The lock sections, for any workers. -/
def farmnOps (T : Type) : SlotOps Farmn T where
  slotUnit q := readAt q.mem q.pptr.var q.size
  fill := farmnFill
  putEnter := farmnQPutEnter
  putCheck := farmnQPutCheck
  send q _ := farmnQSend q

/-! ## A farm queue is a no-copy queue with one link -/

/-- The queue without the consumers' pointer, and that pointer for its only link. -/
def Farmn.queue (q : Farmn) : Linked Unit :=
  (⟨q.rc, q.mem, q.memEnd, q.size, q.du, q.pptr⟩, fun _ => q.cptr)

/-- **Every worker is a send on the one link**, and every put counts one reader. -/
theorem farmn_views (T : Type) (c : ℕ) :
    Views (farmnOps T) c (nmc12mOps Unit) 1 (fun _ => ()) Farmn.queue where
  slotUnit _ := rfl
  fill q off bs := by
    change (farmnFill q off bs).map _ = (nmc12mFill q.queue.1 off bs).map _
    by_cases h : off + bs.length ≤ q.size
    · have h' : off + bs.length ≤ q.queue.1.size := h
      rw [farmnFill, if_pos h, nmc12mFill, if_pos h', Option.map_map, Option.map_map]
      rfl
    · have h' : ¬ off + bs.length ≤ q.queue.1.size := h
      rw [farmnFill, if_neg h, nmc12mFill, if_neg h', Option.map_none, Option.map_none]
  putEnter q := by
    change (farmnQPutEnter q c).map _ = (nmc12mPutEnter q.queue.1 1).map _
    by_cases h : q.pptr.rcidx < q.rc.length
    · have h' : q.queue.1.vptr.rcidx < q.queue.1.rc.length := h
      rw [farmnQPutEnter, if_pos h, nmc12mPutEnter, if_pos h']
      rfl
    · have h' : ¬ q.queue.1.vptr.rcidx < q.queue.1.rc.length := h
      rw [farmnQPutEnter, if_neg h, nmc12mPutEnter, if_neg h', Option.map_none, Option.map_none]
  putCheck q i := by
    change (farmnQPutCheck q i).map _ = (nmc12mPutCheck q.queue.1 i).map _
    rw [farmnQPutCheck, nmc12mPutCheck, Option.map_map, Option.map_map]
    refine congrArg (Option.map · _) (funext fun n => ?_)
    rw [Function.comp_apply, Function.comp_apply]
    split <;> rfl
  send q t fd condRecv := by
    change (farmnQSend q fd condRecv).map _ = (nmc12mSend q.queue.1 fd q.cptr condRecv).map _
    rw [farmnQSend, nmc12mSend]
    simp only [Option.bind_eq_bind, Option.map_bind]
    refine congrArg (Option.bind _) (funext fun n => ?_)
    rw [Function.comp_apply, Function.comp_apply]
    by_cases h : n ≠ 0 ∧ q.pptr.rcidx ≠ q.cptr.rcidx
    · have h' : n ≠ 0 ∧ q.queue.1.vptr.rcidx ≠ q.cptr.rcidx := h
      rw [if_pos h, if_pos h', Option.map_bind, Option.map_bind]
      rfl
    · have h' : ¬ (n ≠ 0 ∧ q.queue.1.vptr.rcidx ≠ q.cptr.rcidx) := h
      rw [if_neg h, if_neg h']
      cases condRecv <;> rfl

/-! ## Exactly once -/

/-- **A farm queue refines the log with a single cursor**, shared by the workers. -/
theorem farmn_refines (T : Type) (c du size : ℕ) :
    Refines (farmnOps T) c du (fun _ => ()) fun q l => Nmc12m.Rep du size q.queue.1 q.queue.2 l :=
  (farmn_views T c).refines (nmc12m_refines (by decide))

/-- A fresh farm queue whose block has all its slots represents the empty log. -/
theorem rep_internalFarmnQCreate (rawMem : ℕ → Byte) (rawRc : ℕ → ℕ) {du size : ℕ} (hdu : 0 < du)
    (hfits : du * size < 2 ^ 64) :
    Nmc12m.Rep du size (internalFarmnQCreate rawMem rawRc du size).queue.1
      (internalFarmnQCreate rawMem rawRc du size).queue.2 (SlotLog.empty (List Byte) Unit) :=
  { Nmc12m.rep_create rawMem rawRc hdu hfits with
    rclen := by simp [internalFarmnQCreate, Farmn.queue]; omega
    count := fun j hj => absurd hj.lt (Nat.not_lt_zero j)
    fresh := fun s _ hs hpos => by
      exact (getElem?_clearRc _ _ _).trans (if_pos (by simp; omega))
    next := fun _ hpos => absurd hpos (Nat.not_lt_zero 0) }

/-- A fresh queue and `w` workers. -/
def farmnStart (rawMem : ℕ → Byte) (rawRc : ℕ → ℕ) (du size w : ℕ) : NoCopy Farmn (Fin w) :=
  NoCopy.start (internalFarmnQCreate rawMem rawRc du size)

/-- Everything sent, in the order of the sends, with the worker each unit went to. -/
def NoCopy.sentUnits {σ T : Type} (s : NoCopy σ T) : List (T × List Byte) :=
  s.replies.filterMap fun r => r.unit?.map (r.thread, ·)

theorem NoCopy.units_unit {σ T : Type} (s : NoCopy σ T) :
    s.units (fun _ => ()) () = s.sentUnits.map Prod.snd := by
  rw [NoCopy.units, NoCopy.sentUnits, List.map_filterMap]
  refine List.filterMap_congr fun r _ => ?_
  rw [if_pos rfl, Option.map_map]
  exact Option.map_id'.symm

/-- **Farm, exactly once**, where the size of the block is a `size_t`.  Whatever the threads' order,
no lock section faults; the `i`-th unit sent, over all workers, is the `i`-th unit committed, so
every committed unit goes to at most one worker and unaltered; a send finds data ready exactly when
some unit whose put has returned is unsent; and the producer's slot, outside a put, holds no unit
that is unsent. -/
theorem farmn_exactly_once (rawMem : ℕ → Byte) (rawRc : ℕ → ℕ) (du size w c : ℕ) (hdu : 1 ≤ du)
    (hfits : du * size < 2 ^ 64) (s : NoCopy Farmn (Fin w))
    (hs : Reaches (NoCopy.step (farmnOps (Fin w)) c) (farmnStart rawMem rawRc du size w) s) :
    s.Faultless (farmnOps (Fin w)) c ∧
    s.sentUnits.map Prod.snd <+: s.committed ∧
    (∀ t condRecv, s.Ready (farmnOps (Fin w)) t condRecv ↔ s.sentUnits.length < s.returned) ∧
    s.store.cptr = ⟨s.sentUnits.length % du * size, s.sentUnits.length % du⟩ ∧
    (s.producer = .idle → s.store.pptr.var = s.store.pptr.rcidx * size ∧
      ∀ j, s.sentUnits.length ≤ j → j < s.returned → j % du ≠ s.store.pptr.rcidx) := by
  have R := farmn_refines (Fin w) c du size
  obtain ⟨l, hinv⟩ := R.reaches (rep_internalFarmnQCreate rawMem rawRc hdu hfits) hs
  have hrep := hinv.rep
  have hread : s.sentUnits.length = l.read () := by
    rw [← List.length_map Prod.snd, ← NoCopy.units_unit, hinv.units,
      List.length_take_of_le ((hrep.wf.read_le ()).trans SlotLog.released_le)]
  refine ⟨R.faultless hinv, ?_, fun t condRecv => ?_, ?_, fun hidle => ?_⟩
  · rw [← NoCopy.units_unit]
    exact Refines.units_prefix hinv ()
  · rw [R.ready_iff hinv t condRecv, NoCopy.units_unit, List.length_map]
  · rw [hread]
    exact hrep.link_eq ()
  · have hheld : l.held = false := by rw [hinv.held, hidle]; rfl
    have hidx : s.store.pptr.rcidx = l.items.length % du :=
      hrep.rcidx.trans (by rw [SlotLog.released_of_not_held hheld])
    rw [hread, hidx, hinv.returned, SlotLog.released_of_not_held hheld]
    refine ⟨hrep.var, fun j hle hlt => ?_⟩
    exact mod_ne_mod_of_lt hlt ((hrep.wf.free hheld ()).trans_le (Nat.add_le_add_right hle du))

/-- Two workers of a two-unit queue, and a unit for each. -/
theorem farmn_exactly_once_two : ∃ s : NoCopy Farmn (Fin 2),
    Reaches (NoCopy.step (farmnOps (Fin 2)) 1) (farmnStart (fun _ => 0) (fun _ => 7) 2 1 2) s ∧
    s.sentUnits = [(1, [5]), (0, [6])] ∧ s.sentUnits.map Prod.snd <+: s.committed := by
  have hrun : ∃ s, Machinery.run (NoCopy.step (farmnOps (Fin 2)) 1)
      (farmnStart (fun _ => 0) (fun _ => 7) 2 1 2)
      [.fill 0 [5], .commit, .get 1 false, .fill 0 [6], .commit, .get 0 true] = some s ∧
      s.sentUnits = [(1, [5]), (0, [6])] := ⟨_, rfl, rfl⟩
  obtain ⟨s, hs, hsent⟩ := hrun
  exact ⟨s, ⟨_, hs⟩, hsent,
    (farmn_exactly_once (fun _ => 0) (fun _ => 7) 2 1 2 1 (by decide) (by decide) s ⟨_, hs⟩).2.1⟩

/-- Two units, where the block has room for one. -/
theorem farmn_overtaken {du : ℕ} (hdu : 3 ≤ du) {u v : List Byte}
    (hblock : sizeMul u.length du = u.length) (hv : v.length = u.length) :
    ∃ s, Reaches (NoCopy.step (farmnOps (Fin 1)) 1)
      (farmnStart (fun _ => 0) (fun _ => 0) du u.length 1) s ∧
      s.replies = [⟨0, false, v⟩] ∧ s.committed = [u, v] := by
  refine overtaken_of_views (farmn_views (Fin 1) 1) 0 (n := 2 * du) ?_ hdu (by omega) (by decide) hv
  simp [internalFarmnQCreate, Farmn.queue, hblock, clearRc_replicate, linkVptr]

/-- The size of 2 ^ 30 + 1 units of 2 ^ 34 bytes wraps to that of one: the producer gets back the
slot of the first unit unsent, and a worker is sent the second one. -/
theorem farmn_unit_overwritten : ∃ s : NoCopy Farmn (Fin 1),
    Reaches (NoCopy.step (farmnOps (Fin 1)) 1)
      (farmnStart (fun _ => 0) (fun _ => 0) (2 ^ 30 + 1) (2 ^ 34) 1) s ∧
    ¬ s.sentUnits.map Prod.snd <+: s.committed := by
  have h := @farmn_overtaken (2 ^ 30 + 1) (by decide) (List.replicate (2 ^ 34) 1)
    (List.replicate (2 ^ 34) 2)
    (by rw [List.length_replicate]; decide) (by rw [List.length_replicate, List.length_replicate])
  rw [List.length_replicate] at h
  obtain ⟨s, hs, hreplies, hcommitted⟩ := h
  refine ⟨s, hs, fun hpre => ?_⟩
  rw [NoCopy.sentUnits, hreplies, hcommitted] at hpre
  exact not_prefix_of_overtaken (by decide) hpre

end Libdsys
