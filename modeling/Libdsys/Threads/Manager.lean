import Mathlib.Algebra.Order.BigOperators.Group.Finset
import Mathlib.Data.Finset.Card
import Libdsys.Machinery.Runs

/-!
# Threads/Manager — the thread manager waits once

`__bc_thread_manager` creates a service thread for every other process, waits on its condition
variable, once, and exits; `bc_final` joins it.  A service thread that sees the end of its stream
counts itself out, and the last one signals.

* `Tmgr.Orderly` — the manager returns from its wait only when every thread was counted out, and
  does not sleep when all are gone.
* `orderly_iff` — the runs that are orderly throughout are those of at least two processes in which
  no spurious wake-up is returned from early.
* `Tmgr.not_stuck` — in those the join completes.
-/

open Machinery

namespace Libdsys

/-- Where `__bc_thread_manager` stands. -/
inductive Manager
  /-- It is about to set `nst`. -/
  | start
  /-- It is about to take the lock. -/
  | locking
  /-- It holds the lock and has created the first `i` service threads. -/
  | creating (i : ℕ)
  /-- It sleeps in `bc_cond_wait`. -/
  | asleep
  /-- It was woken, by a signal or without one, and wants the lock back. -/
  | woken (signal : Bool)
  /-- It has returned from `bc_cond_wait` and holds the lock. -/
  | returned
  | exited
deriving DecidableEq, Repr

/-- `bc_cond_signal` on the condition variable of the manager. -/
def Manager.signal : Manager → Manager
  | .asleep => .woken true
  | m => m

/-- Where a service thread stands at its end. -/
inductive Ending
  | absent
  /-- It serves requests. -/
  | serving
  /-- It has read the end of the stream and shut its sockets down. -/
  | closing
  /-- It holds the lock. -/
  | locked
  /-- It holds the lock and has decremented `nst`. -/
  | counted
  | exited
deriving DecidableEq, Repr

/-- `bc_tmgr_t`, and where its threads stand. -/
structure Tmgr where
  nst : ℕ
  held : Bool
  mgr : Manager
  service : ℕ → Ending

inductive TmgrAct
  /-- The manager sets `nst`. -/
  | set
  /-- It takes the lock. -/
  | lock
  /-- It creates a service thread. -/
  | create
  /-- It has created them all, and waits. -/
  | wait
  /-- It wakes up without a signal. -/
  | spurious
  /-- It takes the lock back, and returns from its wait. -/
  | relock
  /-- It releases the lock and exits. -/
  | exit
  /-- Service thread `i` reads the end of its stream. -/
  | eof (i : ℕ)
  /-- It takes the lock. -/
  | take (i : ℕ)
  /-- It counts itself out, and signals if it is the last one. -/
  | count (i : ℕ)
  /-- It releases the lock and exits. -/
  | release (i : ℕ)
deriving DecidableEq, Repr

namespace Tmgr

def setService (s : Tmgr) (i : ℕ) (st : Ending) : Tmgr :=
  { s with service := Function.update s.service i st }

@[simp] theorem setService_nst (s : Tmgr) (i : ℕ) (st : Ending) :
    (s.setService i st).nst = s.nst := rfl

@[simp] theorem setService_held (s : Tmgr) (i : ℕ) (st : Ending) :
    (s.setService i st).held = s.held := rfl

@[simp] theorem setService_mgr (s : Tmgr) (i : ℕ) (st : Ending) :
    (s.setService i st).mgr = s.mgr := rfl

/-- One step of some thread of a process of `size` processes. -/
def step (size : ℕ) (s : Tmgr) : TmgrAct → Option Tmgr
  | .set => if s.mgr = .start then some { s with nst := size - 1, mgr := .locking } else none
  | .lock =>
    if s.mgr = .locking ∧ s.held = false then
      some { s with held := true, mgr := .creating 0 }
    else none
  | .create =>
    match s.mgr with
    | .creating i =>
      if i < s.nst then some { s.setService i .serving with mgr := .creating (i + 1) } else none
    | _ => none
  | .wait =>
    match s.mgr with
    | .creating i => if i < s.nst then none else some { s with held := false, mgr := .asleep }
    | _ => none
  | .spurious => if s.mgr = .asleep then some { s with mgr := .woken false } else none
  | .relock =>
    match s.mgr with
    | .woken _ => if s.held then none else some { s with held := true, mgr := .returned }
    | _ => none
  | .exit => if s.mgr = .returned then some { s with held := false, mgr := .exited } else none
  | .eof i => if s.service i = .serving then some (s.setService i .closing) else none
  | .take i =>
    if s.service i = .closing ∧ s.held = false then
      some { s.setService i .locked with held := true }
    else none
  | .count i =>
    if s.service i = .locked then
      some { s.setService i .counted with
        nst := s.nst - 1
        mgr := if s.nst - 1 = 0 then s.mgr.signal else s.mgr }
    else none
  | .release i =>
    if s.service i = .counted then some { s.setService i .exited with held := false } else none

/-- The manager returns from its wait only when every service thread was counted out, and does not
sleep when they are all gone. -/
def Orderly (size : ℕ) (s : Tmgr) : Prop :=
  (s.mgr = .returned → s.nst = 0) ∧
    ¬(s.mgr = .asleep ∧ ∀ i < size - 1, s.service i = .exited)

/-- There is a service thread to wait for, and a wake-up without a signal is returned from only
when every service thread was counted out. -/
def timely (size : ℕ) (s : Tmgr) : TmgrAct → Bool
  | .wait => 2 ≤ size
  | .relock => s.mgr ≠ .woken false ∨ s.nst = 0
  | _ => true

/-- The steps of a process whose manager is not woken early. -/
def careful (size : ℕ) : Tmgr → TmgrAct → Option Tmgr :=
  restrict (fun s a => s.timely size a = true) (step size)

/-- `bc_tmgr_t` as `bc_malloc` returns it, and the manager created. -/
structure Initial (s : Tmgr) : Prop where
  mgr : s.mgr = .start
  held : s.held = false
  service : ∀ i, s.service i = .absent

/-! ## The invariant -/

end Tmgr

/-- The thread was counted out. -/
def Ending.gone : Ending → Bool
  | .counted | .exited => true
  | _ => false

@[simp] theorem Ending.gone_absent : Ending.absent.gone = false := rfl
@[simp] theorem Ending.gone_serving : Ending.serving.gone = false := rfl
@[simp] theorem Ending.gone_closing : Ending.closing.gone = false := rfl
@[simp] theorem Ending.gone_locked : Ending.locked.gone = false := rfl
@[simp] theorem Ending.gone_counted : Ending.counted.gone = true := rfl
@[simp] theorem Ending.gone_exited : Ending.exited.gone = true := rfl

/-- The manager has not waited yet. -/
def Manager.early : Manager → Bool
  | .start | .locking | .creating _ => true
  | _ => false

theorem Manager.early_iff {m : Manager} :
    m.early = true ↔ m = .start ∨ m = .locking ∨ ∃ i, m = .creating i := by
  cases m <;> simp [early]

theorem Manager.signal_early (m : Manager) : m.signal.early = m.early := by
  cases m <;> rfl

/-- A signal only ends a sleep. -/
theorem Manager.signal_eq {m m' : Manager} (hasleep : m' ≠ .asleep) (hwoken : m' ≠ .woken true) :
    m.signal = m' ↔ m = m' := by
  cases m with
  | asleep => simp [signal, hasleep.symm, hwoken.symm]
  | _ => rfl

namespace Tmgr

variable {size : ℕ} {s t : Tmgr}

/-- The service threads that were not counted out. -/
def pending (size : ℕ) (service : ℕ → Ending) : Finset ℕ :=
  (Finset.range (size - 1)).filter fun i => (service i).gone = false

theorem pending_update_of_gone_eq {service : ℕ → Ending} {i : ℕ} {st : Ending}
    (h : st.gone = (service i).gone) :
    pending size (Function.update service i st) = pending size service := by
  refine Finset.filter_congr fun j _ => ?_
  rcases eq_or_ne j i with rfl | hne
  · rw [Function.update_self, h]
  · rw [Function.update_of_ne hne]

theorem pending_update_of_gone {service : ℕ → Ending} {i : ℕ} {st : Ending}
    (h : st.gone = true) :
    pending size (Function.update service i st) = (pending size service).erase i := by
  ext j
  rcases eq_or_ne j i with rfl | hne
  · simp [pending, h]
  · simp [pending, hne]

theorem pending_eq_range {service : ℕ → Ending} (h : ∀ i, (service i).gone = false) :
    pending size service = Finset.range (size - 1) :=
  Finset.filter_true_of_mem fun i _ => h i

/-- What holds in every state before the first step that is not timely. -/
structure Inv (size : ℕ) (s : Tmgr) : Prop where
  /-- `nst` counts the threads that were not counted out. -/
  nst : s.mgr ≠ .start → s.nst = (pending size s.service).card
  /-- The manager holds the lock while it creates threads. -/
  creating : ∀ i, s.mgr = .creating i →
    s.held = true ∧ i ≤ size - 1 ∧ ∀ j, s.service j = .absent ↔ i ≤ j
  absent : s.mgr = .start ∨ s.mgr = .locking → ∀ j, s.service j = .absent
  present : s.mgr.early = false → ∀ j, s.service j = .absent ↔ size - 1 ≤ j
  /-- No thread has the lock before the manager waits. -/
  early : s.mgr.early = true → ∀ i, s.service i ≠ .locked ∧ (s.service i).gone = false
  asleep : s.mgr = .asleep → s.nst ≠ 0
  signalled : s.mgr = .woken true → s.nst = 0
  returned : s.mgr = .returned → s.nst = 0
  /-- The lock is held by some thread that can go on. -/
  holder : s.held = true → (∃ i, s.mgr = .creating i) ∨ s.mgr = .returned ∨
    ∃ i, s.service i = .locked ∨ s.service i = .counted

theorem Initial.inv (h : s.Initial) : s.Inv size where
  nst hne := absurd h.mgr hne
  creating i hi := by simp [h.mgr] at hi
  absent _ := h.service
  present hearly := by simp [h.mgr, Manager.early] at hearly
  early _ i := by simp [h.service i]
  asleep hasleep := by simp [h.mgr] at hasleep
  signalled hwoken := by simp [h.mgr] at hwoken
  returned hreturned := by simp [h.mgr] at hreturned
  holder hheld := by simp [h.held] at hheld

namespace Inv

/-- A process is orderly as long as the invariant holds. -/
theorem orderly (h : s.Inv size) : s.Orderly size := by
  refine ⟨h.returned, fun ⟨hasleep, hexited⟩ => h.asleep hasleep ?_⟩
  rw [h.nst (by simp [hasleep]), Finset.card_eq_zero]
  refine Finset.filter_eq_empty_iff.mpr fun i hi => ?_
  simp [hexited i (Finset.mem_range.mp hi)]

/-- Before the manager waits, every service thread is still to be counted out. -/
theorem nst_early (h : s.Inv size) (hearly : s.mgr.early = true) (hne : s.mgr ≠ .start) :
    s.nst = size - 1 := by
  rw [h.nst hne, pending_eq_range fun i => (h.early hearly i).2, Finset.card_range]

/-- A service thread exists only once the manager has the lock. -/
theorem creating_of_early (h : s.Inv size) (hearly : s.mgr.early = true) {i : ℕ}
    (hi : s.service i ≠ .absent) : s.held = true := by
  rcases Manager.early_iff.mp hearly with hmgr | hmgr | ⟨j, hmgr⟩
  · exact absurd (h.absent (.inl hmgr) i) hi
  · exact absurd (h.absent (.inr hmgr) i) hi
  · exact (h.creating j hmgr).1

theorem absent_update {i : ℕ} {st : Ending} (hi : s.service i ≠ .absent) (hst : st ≠ .absent)
    (j : ℕ) : (s.setService i st).service j = .absent ↔ s.service j = .absent := by
  rcases eq_or_ne j i with rfl | hne
  · simp [setService, hi, hst]
  · simp [setService, hne]

/-- **A service thread moves on, and is not counted out by it.** -/
theorem setService (h : s.Inv size) {i : ℕ} {st : Ending} {held : Bool}
    (hi : s.service i ≠ .absent) (hst : st ≠ .absent) (hgone : st.gone = (s.service i).gone)
    (hlock : s.mgr.early = true → st ≠ .locked ∧ held = s.held)
    (hholder : held = true → (∃ j, s.mgr = .creating j) ∨ s.mgr = .returned ∨
      ∃ j, (s.setService i st).service j = .locked ∨ (s.setService i st).service j = .counted) :
    Inv size { s.setService i st with held := held } where
  nst hne := (h.nst hne).trans (congrArg Finset.card (pending_update_of_gone_eq hgone).symm)
  creating j hj := by
    obtain ⟨hheld, hle, habsent⟩ := h.creating j hj
    refine ⟨?_, hle, fun k => (absent_update hi hst k).trans (habsent k)⟩
    rw [← hheld]
    exact (hlock (by rw [show s.mgr = _ from hj]; rfl)).2
  absent hmgr j := absurd (h.absent hmgr i) hi
  present hearly j := (absent_update hi hst j).trans (h.present hearly j)
  early hearly j := by
    rcases eq_or_ne j i with rfl | hne
    · simpa [Tmgr.setService, hgone, (h.early hearly j).2] using (hlock hearly).1
    · simpa [Tmgr.setService, hne] using h.early hearly j
  asleep := h.asleep
  signalled := h.signalled
  returned := h.returned
  holder := hholder

/-- **The last service thread to count itself out wakes the manager.** -/
theorem count (h : s.Inv size) {i : ℕ} (hi : s.service i = .locked) :
    Inv size { s.setService i .counted with
      nst := s.nst - 1
      mgr := if s.nst - 1 = 0 then s.mgr.signal else s.mgr } := by
  have hlate : s.mgr.early = false := by
    by_contra hearly
    exact (h.early (Bool.not_eq_false _ ▸ hearly) i).1 hi
  have hpresent : s.service i ≠ .absent := by simp [hi]
  have hlt : i < size - 1 := by
    by_contra hge
    exact hpresent ((h.present hlate i).mpr (by omega))
  have hstart : s.mgr ≠ .start := fun hmgr => by simp [hmgr, Manager.early] at hlate
  have hmem : i ∈ pending size s.service := by simp [pending, hlt, hi]
  have hcard : (pending size (Function.update s.service i .counted)).card = s.nst - 1 := by
    rw [pending_update_of_gone rfl, Finset.card_erase_of_mem hmem, ← h.nst hstart]
  have hkept : ∀ m, m ≠ .asleep → m ≠ .woken true →
      ((if s.nst - 1 = 0 then s.mgr.signal else s.mgr) = m ↔ s.mgr = m) := by
    intro m hasleep hwoken
    split
    · exact Manager.signal_eq hasleep hwoken
    · exact Iff.rfl
  have hlate' : (if s.nst - 1 = 0 then s.mgr.signal else s.mgr).early = false := by
    split
    · rwa [Manager.signal_early]
    · exact hlate
  exact {
    nst := fun _ => hcard.symm
    creating := fun j hj => by
      have hmgr := (hkept _ (by simp) (by simp)).mp hj
      simp [hmgr, Manager.early] at hlate
    absent := fun hmgr => by
      have hearly := Manager.early_iff.mpr (hmgr.imp_right .inl)
      exact absurd hearly (by simp [hlate'])
    present := fun _ j => (absent_update hpresent (by simp) j).trans (h.present hlate j)
    early := fun hearly => by simp [hlate'] at hearly
    asleep := fun hasleep hzero => by
      replace hzero : s.nst - 1 = 0 := hzero
      rw [if_pos hzero] at hasleep
      cases hmgr : s.mgr <;> simp [hmgr, Manager.signal] at hasleep
    signalled := fun hwoken => by
      replace hwoken : (if s.nst - 1 = 0 then s.mgr.signal else s.mgr) = .woken true := hwoken
      change s.nst - 1 = 0
      by_contra hpos
      rw [if_neg hpos] at hwoken
      have := h.signalled hwoken
      omega
    returned := fun hreturned => by
      have := h.returned ((hkept _ (by simp) (by simp)).mp hreturned)
      change s.nst - 1 = 0
      omega
    holder := fun _ => .inr (.inr ⟨i, .inr (by simp [Tmgr.setService])⟩) }

/-- A step of the manager that leaves `nst` and the service threads alone. -/
theorem manager (h : s.Inv size) {m : Manager} {held : Bool} (hstart : s.mgr ≠ .start)
    (hcreating : ∀ i, m = .creating i → i = 0 ∧ s.mgr = .locking ∧ held = true)
    (hlocking : m ≠ .start ∧ m ≠ .locking)
    (hpresent : m.early = false → ∀ j, s.service j = .absent ↔ size - 1 ≤ j)
    (hasleep : m = .asleep → s.nst ≠ 0) (hsignalled : m = .woken true → s.nst = 0)
    (hreturned : m = .returned → s.nst = 0)
    (hholder : held = true → (∃ i, m = .creating i) ∨ m = .returned ∨
      ∃ i, s.service i = .locked ∨ s.service i = .counted) :
    Inv size { s with held := held, mgr := m } where
  nst _ := h.nst hstart
  creating i hi := by
    obtain ⟨rfl, hmgr, rfl⟩ := hcreating i hi
    exact ⟨rfl, Nat.zero_le _, fun j => by simp [h.absent (.inr hmgr) j]⟩
  absent hmgr := by
    rcases hmgr with hmgr | hmgr
    · exact absurd hmgr hlocking.1
    · exact absurd hmgr hlocking.2
  present := hpresent
  early hearly i := by
    cases m with
    | start => exact absurd rfl hlocking.1
    | locking => exact absurd rfl hlocking.2
    | creating j =>
      obtain ⟨-, hmgr, -⟩ := hcreating j rfl
      simp [h.absent (.inr hmgr) i]
    | _ => simp [Manager.early] at hearly
  asleep := hasleep
  signalled := hsignalled
  returned := hreturned
  holder := hholder

/-- The manager creates its next service thread. -/
theorem create (h : s.Inv size) {i : ℕ} (hmgr : s.mgr = .creating i) (hlt : i < s.nst) :
    Inv size { s.setService i .serving with mgr := .creating (i + 1) } := by
  have hearly : s.mgr.early = true := by rw [hmgr]; rfl
  have hnst : s.nst = size - 1 := h.nst_early hearly (by simp [hmgr])
  obtain ⟨hheld, -, habsent⟩ := h.creating i hmgr
  have hi : s.service i = .absent := (habsent i).mpr (Nat.le_refl i)
  exact {
    nst := fun _ => (h.nst (by simp [hmgr])).trans
      (congrArg Finset.card (pending_update_of_gone_eq (by rw [hi]; rfl)).symm)
    creating := fun j hj => by
      obtain rfl := Manager.creating.inj hj
      refine ⟨hheld, hnst ▸ hlt, fun k => ?_⟩
      rcases eq_or_ne k i with rfl | hne
      · simp [Tmgr.setService]
      · simp only [Tmgr.setService, Function.update_of_ne hne, habsent k]
        omega
    absent := nofun
    present := nofun
    early := fun _ j => by
      rcases eq_or_ne j i with rfl | hne
      · simp [Tmgr.setService]
      · simpa [Tmgr.setService, hne] using h.early hearly j
    asleep := nofun
    signalled := nofun
    returned := nofun
    holder := fun _ => .inl ⟨i + 1, rfl⟩ }

/-- **What every timely step keeps.** -/
theorem step (h : s.Inv size) {a : TmgrAct} (hok : s.timely size a = true)
    (ha : s.step size a = some t) : t.Inv size := by
  cases a with
  | set =>
    obtain ⟨hmgr, ⟨⟩⟩ := Option.ite_none_right_eq_some.mp ha
    have hearly : s.mgr.early = true := by rw [hmgr]; rfl
    exact {
      nst := fun _ => by
        rw [pending_eq_range fun i => (h.early hearly i).2, Finset.card_range]
      creating := nofun
      absent := fun _ => h.absent (.inl hmgr)
      present := nofun
      early := fun _ => h.early hearly
      asleep := nofun
      signalled := nofun
      returned := nofun
      holder := fun hheld => by simpa [hmgr] using h.holder hheld }
  | lock =>
    obtain ⟨⟨hmgr, hheld⟩, ⟨⟩⟩ := Option.ite_none_right_eq_some.mp ha
    exact h.manager (by simp [hmgr]) (fun i hi => ⟨(Manager.creating.inj hi).symm, hmgr, rfl⟩)
      (by simp) nofun nofun nofun nofun (fun _ => .inl ⟨0, rfl⟩)
  | create =>
    simp only [Tmgr.step] at ha
    split at ha
    · rename_i i hmgr
      obtain ⟨hlt, ⟨⟩⟩ := Option.ite_none_right_eq_some.mp ha
      exact h.create hmgr hlt
    · cases ha
  | wait =>
    simp only [Tmgr.step] at ha
    split at ha
    · rename_i i hmgr
      obtain ⟨hge, ⟨⟩⟩ := Option.ite_none_left_eq_some.mp ha
      have hsize : 2 ≤ size := by simpa [timely] using hok
      have hnst : s.nst = size - 1 := h.nst_early (by rw [hmgr]; rfl) (by simp [hmgr])
      obtain ⟨-, hle, habsent⟩ := h.creating i hmgr
      obtain rfl : i = size - 1 := by omega
      exact h.manager (by simp [hmgr]) nofun (by simp) (fun _ => habsent) (fun _ => by omega)
        nofun nofun nofun
    · cases ha
  | spurious =>
    obtain ⟨hmgr, ⟨⟩⟩ := Option.ite_none_right_eq_some.mp ha
    refine h.manager (by simp [hmgr]) nofun (by simp) (fun _ => h.present (by rw [hmgr]; rfl))
      nofun nofun nofun fun hheld => ?_
    simpa [hmgr] using h.holder hheld
  | relock =>
    simp only [Tmgr.step] at ha
    split at ha
    · rename_i b hmgr
      obtain ⟨hheld, ⟨⟩⟩ := Option.ite_none_left_eq_some.mp ha
      refine h.manager (by simp [hmgr]) nofun (by simp) (fun _ => h.present (by rw [hmgr]; rfl))
        nofun nofun (fun _ => ?_) fun _ => .inr (.inl rfl)
      cases b with
      | true => exact h.signalled hmgr
      | false => simpa [timely, hmgr] using hok
    · cases ha
  | exit =>
    obtain ⟨hmgr, ⟨⟩⟩ := Option.ite_none_right_eq_some.mp ha
    exact h.manager (by simp [hmgr]) nofun (by simp) (fun _ => h.present (by rw [hmgr]; rfl))
      nofun nofun nofun nofun
  | eof i =>
    obtain ⟨hi, ⟨⟩⟩ := Option.ite_none_right_eq_some.mp ha
    refine h.setService (by simp [hi]) (by simp) (by simp [hi]) (fun _ => ⟨by simp, rfl⟩)
      fun hheld => ?_
    refine (h.holder hheld).imp_right (.imp_right fun ⟨j, hj⟩ => ⟨j, ?_⟩)
    have hne : j ≠ i := by
      rintro rfl
      simp [hi] at hj
    simpa [Tmgr.setService, hne] using hj
  | take i =>
    obtain ⟨⟨hi, hheld⟩, ⟨⟩⟩ := Option.ite_none_right_eq_some.mp ha
    refine h.setService (by simp [hi]) (by simp) (by simp [hi]) (fun hearly => ?_)
      fun _ => .inr (.inr ⟨i, .inl (by simp [Tmgr.setService])⟩)
    have hpresent : s.service i ≠ .absent := by simp [hi]
    simp [h.creating_of_early hearly hpresent] at hheld
  | count i =>
    obtain ⟨hi, ⟨⟩⟩ := Option.ite_none_right_eq_some.mp ha
    exact h.count hi
  | release i =>
    obtain ⟨hi, ⟨⟩⟩ := Option.ite_none_right_eq_some.mp ha
    refine h.setService (by simp [hi]) (by simp) (by simp [hi]) (fun hearly => ?_) nofun
    have := (h.early hearly i).2
    simp [hi] at this

/-- **A step that is not timely ends in a state that is not orderly.** -/
theorem step_late {a : TmgrAct} (hlate : ¬s.timely size a = true)
    (ha : s.step size a = some t) : ¬t.Orderly size := by
  cases a with
  | wait =>
    simp only [Tmgr.step] at ha
    split at ha
    · obtain ⟨-, ⟨⟩⟩ := Option.ite_none_left_eq_some.mp ha
      have hsize : size < 2 := by simpa [timely] using hlate
      exact fun horderly => horderly.2 ⟨rfl, fun i hi => by omega⟩
    · cases ha
  | relock =>
    simp only [Tmgr.step] at ha
    split at ha
    · obtain ⟨-, ⟨⟩⟩ := Option.ite_none_left_eq_some.mp ha
      have hnst : s.nst ≠ 0 := fun hzero => hlate (by simp [timely, hzero])
      exact fun horderly => hnst (horderly.1 rfl)
    · cases ha
  | _ => exact absurd rfl hlate

/-! ## The join -/

/-- Only the threads the manager creates exist. -/
theorem lt_of_present (h : s.Inv size) {i : ℕ} (hi : s.service i ≠ .absent) : i < size - 1 := by
  by_contra hge
  refine hi ?_
  cases hearly : s.mgr.early with
  | false => exact (h.present hearly i).mpr (not_lt.mp hge)
  | true =>
    rcases Manager.early_iff.mp hearly with hmgr | hmgr | ⟨j, hmgr⟩
    · exact h.absent (.inl hmgr) i
    · exact h.absent (.inr hmgr) i
    · obtain ⟨-, hle, habsent⟩ := h.creating j hmgr
      exact (habsent i).mpr (hle.trans (not_lt.mp hge))

end Inv

/-- Some thread can go on, other than by a spurious wake-up. -/
def GoesOn (size : ℕ) (s : Tmgr) : Prop := ∃ a t, a ≠ .spurious ∧ careful size s a = some t

theorem GoesOn.of_step (a : TmgrAct) (hne : a ≠ .spurious) (hok : s.timely size a = true)
    (ha : (s.step size a).isSome) : s.GoesOn size := by
  obtain ⟨t, ht⟩ := Option.isSome_iff_exists.mp ha
  exact ⟨a, t, hne, restrict_eq_some.mpr ⟨hok, ht⟩⟩

namespace Inv

/-- The thread that has the lock can go on. -/
theorem goesOn_of_held (h : s.Inv size) (hsize : 2 ≤ size) (hheld : s.held = true) :
    s.GoesOn size := by
  rcases h.holder hheld with ⟨i, hmgr⟩ | hmgr | ⟨i, hi | hi⟩
  · by_cases hlt : i < s.nst
    · exact .of_step .create (by simp) rfl (by simp [Tmgr.step, hmgr, hlt])
    · exact .of_step .wait (by simp) (by simpa [timely] using hsize)
        (by simp [Tmgr.step, hmgr, hlt])
  · exact .of_step .exit (by simp) rfl (by simp [Tmgr.step, hmgr])
  · exact .of_step (.count i) (by simp) rfl (by simp [Tmgr.step, hi])
  · exact .of_step (.release i) (by simp) rfl (by simp [Tmgr.step, hi])

/-- While nobody has the lock, a service thread that is not counted out can go on. -/
theorem goesOn_of_pending (h : s.Inv size) (hheld : s.held = false) (hlate : s.mgr.early = false)
    (hnst : s.nst ≠ 0) : s.GoesOn size := by
  have hstart : s.mgr ≠ .start := fun hmgr => by simp [hmgr, Manager.early] at hlate
  rw [h.nst hstart, Finset.card_ne_zero] at hnst
  obtain ⟨i, hi⟩ := hnst
  obtain ⟨hlt, hgone⟩ := Finset.mem_filter.mp hi
  cases hst : s.service i with
  | absent => exact absurd ((h.present hlate i).mp hst) (not_le.mpr (Finset.mem_range.mp hlt))
  | serving => exact .of_step (.eof i) (by simp) rfl (by simp [Tmgr.step, hst])
  | closing => exact .of_step (.take i) (by simp) rfl (by simp [Tmgr.step, hst, hheld])
  | locked => exact .of_step (.count i) (by simp) rfl (by simp [Tmgr.step, hst])
  | counted => simp [hst] at hgone
  | exited => simp [hst] at hgone

/-- **Until the manager has exited, some thread can go on.** -/
theorem goesOn (h : s.Inv size) (hsize : 2 ≤ size) (hexited : s.mgr ≠ .exited) :
    s.GoesOn size := by
  cases hheld : s.held with
  | true => exact h.goesOn_of_held hsize hheld
  | false =>
    cases hmgr : s.mgr with
    | start => exact .of_step .set (by simp) rfl (by simp [Tmgr.step, hmgr])
    | locking => exact .of_step .lock (by simp) rfl (by simp [Tmgr.step, hmgr, hheld])
    | creating i => simp [(h.creating i hmgr).1] at hheld
    | asleep => exact h.goesOn_of_pending hheld (by rw [hmgr]; rfl) (h.asleep hmgr)
    | woken b =>
      by_cases hnst : s.nst = 0
      · exact .of_step .relock (by simp) (by simp [timely, hnst])
          (by simp [Tmgr.step, hmgr, hheld])
      · exact h.goesOn_of_pending hheld (by rw [hmgr]; rfl) hnst
    | returned => exact .of_step .exit (by simp) rfl (by simp [Tmgr.step, hmgr])
    | exited => exact absurd hmgr hexited

end Inv
end Tmgr

/-- Steps the manager has before it. -/
def Manager.left : Manager → ℕ
  | .start => 6
  | .locking => 5
  | .creating _ => 4
  | .asleep => 3
  | .woken _ => 2
  | .returned => 1
  | .exited => 0

theorem Manager.left_signal_le (m : Manager) : m.signal.left ≤ m.left := by
  cases m <;> simp [signal, left]

/-- Steps a service thread has before it, its creation included. -/
def Ending.left : Ending → ℕ
  | .absent => 5
  | .serving => 4
  | .closing => 3
  | .locked => 2
  | .counted => 1
  | .exited => 0

namespace Tmgr

variable {size : ℕ} {s t : Tmgr}

/-- Steps a process has before it. -/
def left (size : ℕ) (s : Tmgr) : ℕ := s.mgr.left + ∑ i ∈ Finset.range (size - 1), (s.service i).left

theorem sum_left_setService (s : Tmgr) {i : ℕ} {st : Ending} (hi : i < size - 1)
    (hlt : st.left < (s.service i).left) :
    ∑ j ∈ Finset.range (size - 1), ((s.setService i st).service j).left <
      ∑ j ∈ Finset.range (size - 1), (s.service j).left := by
  refine Finset.sum_lt_sum (fun j _ => ?_) ⟨i, Finset.mem_range.mpr hi, ?_⟩
  · rcases eq_or_ne j i with rfl | hne
    · simpa [setService] using hlt.le
    · simp [setService, hne]
  · simpa [setService] using hlt

/-- **Every step uses one up**, a spurious wake-up too: the manager does not wait again. -/
theorem Inv.left_lt (h : s.Inv size) {a : TmgrAct} (ha : s.step size a = some t) :
    t.left size < s.left size := by
  cases a with
  | set =>
    obtain ⟨hmgr, ⟨⟩⟩ := Option.ite_none_right_eq_some.mp ha
    simp [left, hmgr, Manager.left]
  | lock =>
    obtain ⟨⟨hmgr, -⟩, ⟨⟩⟩ := Option.ite_none_right_eq_some.mp ha
    simp [left, hmgr, Manager.left]
  | create =>
    simp only [Tmgr.step] at ha
    split at ha
    · rename_i i hmgr
      obtain ⟨hlt, ⟨⟩⟩ := Option.ite_none_right_eq_some.mp ha
      obtain ⟨-, -, habsent⟩ := h.creating i hmgr
      have hnst : s.nst = size - 1 := h.nst_early (by rw [hmgr]; rfl) (by simp [hmgr])
      have hi : s.service i = .absent := (habsent i).mpr (Nat.le_refl i)
      have hpresent : i < size - 1 := by omega
      have hless := sum_left_setService s hpresent
        (by simp [hi, Ending.left] : Ending.serving.left < _)
      simpa [left, hmgr, Manager.left] using hless
    · cases ha
  | wait =>
    simp only [Tmgr.step] at ha
    split at ha
    · rename_i i hmgr
      obtain ⟨-, ⟨⟩⟩ := Option.ite_none_left_eq_some.mp ha
      simp [left, hmgr, Manager.left]
    · cases ha
  | spurious =>
    obtain ⟨hmgr, ⟨⟩⟩ := Option.ite_none_right_eq_some.mp ha
    simp [left, hmgr, Manager.left]
  | relock =>
    simp only [Tmgr.step] at ha
    split at ha
    · rename_i b hmgr
      obtain ⟨-, ⟨⟩⟩ := Option.ite_none_left_eq_some.mp ha
      simp [left, hmgr, Manager.left]
    · cases ha
  | exit =>
    obtain ⟨hmgr, ⟨⟩⟩ := Option.ite_none_right_eq_some.mp ha
    simp [left, hmgr, Manager.left]
  | eof i =>
    obtain ⟨hi, ⟨⟩⟩ := Option.ite_none_right_eq_some.mp ha
    have hlt : i < size - 1 := h.lt_of_present (by simp [hi])
    exact Nat.add_lt_add_left (sum_left_setService s hlt (by simp [hi, Ending.left])) _
  | take i =>
    obtain ⟨⟨hi, -⟩, ⟨⟩⟩ := Option.ite_none_right_eq_some.mp ha
    have hlt : i < size - 1 := h.lt_of_present (by simp [hi])
    exact Nat.add_lt_add_left (sum_left_setService s hlt (by simp [hi, Ending.left])) _
  | count i =>
    obtain ⟨hi, ⟨⟩⟩ := Option.ite_none_right_eq_some.mp ha
    have hlt : i < size - 1 := h.lt_of_present (by simp [hi])
    refine Nat.add_lt_add_of_le_of_lt ?_ (sum_left_setService s hlt (by simp [hi, Ending.left]))
    change (if s.nst - 1 = 0 then s.mgr.signal else s.mgr).left ≤ s.mgr.left
    split
    · exact s.mgr.left_signal_le
    · exact Nat.le_refl _
  | release i =>
    obtain ⟨hi, ⟨⟩⟩ := Option.ite_none_right_eq_some.mp ha
    have hlt : i < size - 1 := h.lt_of_present (by simp [hi])
    exact Nat.add_lt_add_left (sum_left_setService s hlt (by simp [hi, Ending.left])) _

theorem Inv.careful (h : s.Inv size) {a : TmgrAct} (ha : careful size s a = some t) :
    t.Inv size ∧ t.left size < s.left size := by
  obtain ⟨hok, ha⟩ := restrict_eq_some.mp ha
  exact ⟨h.step hok ha, h.left_lt ha⟩

end Tmgr

section Join

variable {size : ℕ} {s₀ s : Tmgr}

/-- **Exactly the careful runs are orderly throughout**: there is a second process, and no spurious
wake-up is returned from while a service thread is still counted. -/
theorem orderly_iff {acts : List TmgrAct} (hinit : s₀.Initial)
    (hrun : run (Tmgr.step size) s₀ acts = some s) :
    Along (Tmgr.step size) (Tmgr.Orderly size) s₀ acts ↔
      (run (Tmgr.careful size) s₀ acts).isSome :=
  along_iff (fun _ h => h.orderly) (fun _ _ _ h hok ha => h.step hok ha)
    (fun _ _ _ _ hlate ha => Tmgr.Inv.step_late hlate ha) hinit.inv hrun

/-- **The join completes**: wherever a careful run leads, some thread can go on until the manager
has exited, and no run goes on for ever. -/
theorem join_completes {acts : List TmgrAct} (hsize : 2 ≤ size) (hinit : s₀.Initial)
    (hrun : run (Tmgr.careful size) s₀ acts = some s) :
    (s.mgr = .exited ∨ s.GoesOn size) ∧ acts.length ≤ 6 + 5 * (size - 1) := by
  obtain ⟨hinv, hle⟩ := run_bounded (fun _ _ _ h ha => h.careful ha) (hinit.inv : s₀.Inv size) hrun
  refine ⟨or_iff_not_imp_left.mpr fun hexited => hinv.goesOn hsize hexited, ?_⟩
  have hleft : s₀.left size = 6 + 5 * (size - 1) := by
    simp [Tmgr.left, hinit.mgr, hinit.service, Manager.left, Ending.left, Nat.mul_comm]
  omega

end Join

/-- Two processes: the service thread sees the end of its stream while the manager waits for it. -/
theorem orderly_iff_two : ∃ s : Tmgr,
    run (Tmgr.step 2) ⟨0, false, .start, fun _ => .absent⟩ [.set, .lock, .create, .wait, .eof 0,
      .take 0, .count 0, .release 0, .relock, .exit] = some s ∧
    s.mgr = .exited ∧
    Along (Tmgr.step 2) (Tmgr.Orderly 2) ⟨0, false, .start, fun _ => .absent⟩ [.set, .lock, .create,
      .wait, .eof 0, .take 0, .count 0, .release 0, .relock, .exit] := by
  have hrun : run (Tmgr.step 2) ⟨0, false, .start, fun _ => .absent⟩ [.set, .lock, .create, .wait,
      .eof 0, .take 0, .count 0, .release 0, .relock, .exit] = some _ := rfl
  exact ⟨_, hrun, rfl, (orderly_iff ⟨rfl, rfl, fun _ => rfl⟩ hrun).mpr rfl⟩

/-- A process on its own waits for a signal that no thread is there to send. -/
theorem manager_waits_for_nobody : ∃ s : Tmgr,
    run (Tmgr.step 1) ⟨0, false, .start, fun _ => .absent⟩ [.set, .lock, .wait] = some s ∧
      s.mgr = .asleep ∧ (∀ i < 1 - 1, s.service i = .exited) ∧ ¬s.Orderly 1 :=
  ⟨_, rfl, rfl, nofun, fun h => h.2 ⟨rfl, nofun⟩⟩

/-- A spurious wake-up: the manager returns while the service thread still serves. -/
theorem manager_leaves_early : ∃ s : Tmgr,
    run (Tmgr.step 2) ⟨0, false, .start, fun _ => .absent⟩ [.set, .lock, .create, .wait, .spurious,
      .relock] = some s ∧
      s.mgr = .returned ∧ s.nst = 1 ∧ s.service 0 = .serving ∧ ¬s.Orderly 2 :=
  ⟨_, rfl, rfl, rfl, rfl, fun h => absurd (h.1 rfl) (by decide)⟩

end Libdsys
