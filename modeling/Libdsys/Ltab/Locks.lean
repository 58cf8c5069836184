import Libdsys.Ltab.Destroy

/-!
# Ltab/Locks — who holds the lock of a hook

`__bc_link_search`, `__bc_link_destroy` and `__bc_link_insert`, one operation at a time: taking the
mutex, letting go of it, and what is between.  A mutex is let go of by whoever asks, as it is by the
one that holds it.

* `Goes` — what an operation of the service thread does with the mutex.
* `Locked.Inv` — the mutex is held by the thread that is in a section.
* `lock_discipline_iff` — it is used properly exactly until a link behind the root was unlinked.
-/

open Machinery

namespace Libdsys

/-- The threads that use a hook: its service thread, and the one that inserts links. -/
inductive Party
  | service
  | computation
deriving Repr, DecidableEq

/-- Where the service thread stands in `__bc_link_search`. -/
inductive SearchAt
  /-- Before the first lock. -/
  | enter
  /-- Behind `do`. -/
  | top
  /-- It has read the root, and is to unlock. -/
  | read (dummy : Option ℕ)
  /-- It goes through the links; at their end it is to lock. -/
  | walking (dummy temp : Option ℕ)
  /-- It compares the root with the one it has read. -/
  | check (dummy : Option ℕ)
  | asleep
  /-- The wait has ended, and the lock is to be taken again. -/
  | woken
deriving Repr, DecidableEq

/-- Where it stands in `__bc_link_destroy`. -/
inductive DestroyAt
  /-- Before the first lock. -/
  | enter
  /-- At `again`. -/
  | again
  /-- It has read the root, and is to unlock. -/
  | read (rtemp : Option ℕ)
  /-- It looks at the tag of the root. -/
  | looked (rtemp : Option ℕ)
  /-- It has freed the root, and is to lock. -/
  | freed (rtemp : ℕ) (temp : Option ℕ)
  /-- It compares the root with the one it has freed. -/
  | relocked (rtemp : ℕ) (temp : Option ℕ)
  /-- It looks for the link before that. -/
  | scanning (rtemp : ℕ) (temp : Option ℕ) (dummy : ℕ)
  /-- The freed root is out of the list, and it is to unlock. -/
  | leaving
  /-- It goes through the links from the root on. -/
  | walking (rtemp temp : ℕ)
  /-- The link is not among them, and it is to lock. -/
  | missed (rtemp : ℕ)
  /-- It compares the root with the one it has read. -/
  | check (rtemp : ℕ)
  | asleep
  /-- The wait has ended, and the lock is to be taken again. -/
  | woken
  /-- A link behind the root is out of the list and freed, and it is to unlock. -/
  | unlinked
deriving Repr, DecidableEq

/-- The call the service thread is inside of, for a tag. -/
inductive LinkCall
  | idle
  | search (t : ℕ) (pc : SearchAt)
  | destroy (t : ℕ) (pc : DestroyAt)
deriving Repr, DecidableEq

/-- Where the computation thread stands in the section of an insertion. -/
inductive InsertAt
  | outside
  | locked
  | linked
  | signalled
deriving Repr, DecidableEq

/-- Behind a lock, and before the unlocking or the wait that belongs to it. -/
def SearchAt.inside : SearchAt → Bool
  | .top | .read _ | .check _ => true
  | .enter | .walking _ _ | .asleep | .woken => false

def DestroyAt.inside : DestroyAt → Bool
  | .again | .read _ | .relocked _ _ | .scanning _ _ _ | .leaving | .check _ => true
  | .enter | .looked _ | .freed _ _ | .walking _ _ | .missed _ | .asleep | .woken | .unlinked =>
    false

/-- **The service thread is in a section.** -/
def LinkCall.inside : LinkCall → Bool
  | .idle => false
  | .search _ pc => pc.inside
  | .destroy _ pc => pc.inside

/-- `bc_cond_signal`. -/
def LinkCall.signal : LinkCall → LinkCall
  | .search t .asleep => .search t .woken
  | .destroy t .asleep => .destroy t .woken
  | call => call

/-- A hook with its mutex, and the two threads.  The hook's own `destroy` plays no part. -/
structure Locked where
  hook : Hooked
  insertAt : InsertAt
  call : LinkCall
  /-- Who holds the mutex. -/
  mutex : Option Party
  /-- Some thread has unlocked, or waited on, a mutex it did not hold. -/
  misused : Bool

inductive LockedAct
  /-- `bc_malloc` of a link, and its fields. -/
  | malloc (a : ℕ) (next : Option ℕ)
  /-- The next operation of an insertion. -/
  | insert
  /-- The service thread calls `__bc_link_search`. -/
  | search (t : ℕ)
  /-- It calls `__bc_link_destroy`. -/
  | destroy (t : ℕ)
  /-- The next operation of its call. -/
  | go
  /-- Its wait ends without a signal. -/
  | spurious
deriving DecidableEq

namespace Locked

/-- The service thread goes on at `call`. -/
def goto (s : Locked) (call : LinkCall) : Locked := { s with call }

/-- `bc_mutex_lock` of the service thread, or the end of its `bc_cond_wait`. -/
def acquires (s : Locked) (call : LinkCall) : Option Locked :=
  if s.mutex = none then some { s with mutex := some .service, call } else none

/-- `bc_mutex_unlock`, or the start of `bc_cond_wait`. -/
def release (s : Locked) (p : Party) : Locked :=
  { s with mutex := none, misused := s.misused || s.mutex ≠ some p }

/-- `__bc_link_search` for tag `t`. -/
def searchStep (s : Locked) (t : ℕ) : SearchAt → Option Locked
  | .enter => s.acquires (.search t .top)
  | .top => some (s.goto (.search t (.read s.hook.root)))
  | .read dummy => some ((s.release .service).goto (.search t (.walking dummy dummy)))
  | .walking dummy (some temp) =>
    if (s.hook.mem temp).link.tag = t then some (s.goto .idle)
    else some (s.goto (.search t (.walking dummy (s.hook.next temp))))
  | .walking dummy none => s.acquires (.search t (.check dummy))
  | .check dummy =>
    if dummy ≠ s.hook.root then some (s.goto (.search t .top))
    else some ((s.release .service).goto (.search t .asleep))
  | .asleep => none
  | .woken => s.acquires (.search t .top)

/-- `__bc_link_destroy` for tag `t`; `none` is also a `NULL` that is followed. -/
def destroyStep (s : Locked) (t : ℕ) : DestroyAt → Option Locked
  | .enter => s.acquires (.destroy t .again)
  | .again => some (s.goto (.destroy t (.read s.hook.root)))
  | .read rtemp => some ((s.release .service).goto (.destroy t (.looked rtemp)))
  | .looked none => none
  | .looked (some rtemp) =>
    if (s.hook.mem rtemp).link.tag = t then
      some ({ s with hook := s.hook.free rtemp }.goto
        (.destroy t (.freed rtemp (s.hook.next rtemp))))
    else some (s.goto (.destroy t (.walking rtemp rtemp)))
  | .freed rtemp temp => s.acquires (.destroy t (.relocked rtemp temp))
  | .relocked rtemp temp =>
    if some rtemp = s.hook.root then
      some ({ s with hook := { s.hook with root := temp } }.goto (.destroy t .leaving))
    else s.hook.root.map fun dummy => s.goto (.destroy t (.scanning rtemp temp dummy))
  | .scanning rtemp temp dummy =>
    if s.hook.next dummy = some rtemp then
      some ({ s with hook := s.hook.setNext dummy temp }.goto (.destroy t .leaving))
    else (s.hook.next dummy).map fun dummy => s.goto (.destroy t (.scanning rtemp temp dummy))
  | .leaving => some ((s.release .service).goto .idle)
  | .walking rtemp temp =>
    (s.hook.next temp).map fun dummy =>
      if (s.hook.mem dummy).link.tag = t then
        { s with hook := (s.hook.setNext temp (s.hook.next dummy)).free dummy }.goto
          (.destroy t .unlinked)
      else if s.hook.next dummy = none then s.goto (.destroy t (.missed rtemp))
      else s.goto (.destroy t (.walking rtemp dummy))
  | .missed rtemp => s.acquires (.destroy t (.check rtemp))
  | .check rtemp =>
    if some rtemp ≠ s.hook.root then some (s.goto (.destroy t .again))
    else some ((s.release .service).goto (.destroy t .asleep))
  | .asleep => none
  | .woken => s.acquires (.destroy t .again)
  | .unlinked => some ((s.release .service).goto .idle)

/-- The section of an insertion. -/
def insertStep (s : Locked) : InsertAt → Option Locked
  | .outside =>
    if s.mutex = none ∧ s.hook.insert.isSome then
      some { s with mutex := some .computation, insertAt := .locked }
    else none
  | .locked => s.hook.insert.map fun a => { s with hook := s.hook.linked a, insertAt := .linked }
  | .linked => some { s with call := s.call.signal, insertAt := .signalled }
  | .signalled => some { s.release .computation with insertAt := .outside }

/-- One operation. -/
def step (s : Locked) : LockedAct → Option Locked
  | .malloc a next =>
    if s.insertAt = .outside then
      (s.hook.step 0 (.malloc a next)).map fun hook => { s with hook }
    else none
  | .insert => s.insertStep s.insertAt
  | .search t => if s.call = .idle then some (s.goto (.search t .enter)) else none
  | .destroy t => if s.call = .idle then some (s.goto (.destroy t .enter)) else none
  | .go =>
    match s.call with
    | .idle => none
    | .search t pc => s.searchStep t pc
    | .destroy t pc => s.destroyStep t pc
  | .spurious =>
    match s.call with
    | .search t .asleep => some (s.goto (.search t .woken))
    | .destroy t .asleep => some (s.goto (.destroy t .woken))
    | _ => none

/-- A hook and threads between calls. -/
structure Initial (s : Locked) : Prop where
  outside : s.insertAt = .outside
  idle : s.call = .idle
  mutex : s.mutex = none
  misused : s.misused = false

/-- **The discipline**: a mutex was unlocked, or waited on, by the thread that held it and no other;
the service thread holds none between its calls; and it is in no section while an insertion is. -/
structure Disciplined (s : Locked) : Prop where
  used : s.misused = false
  returned : s.call = .idle → s.mutex ≠ some .service
  exclusive : s.insertAt ≠ .outside → s.call.inside = false

/-- **The steps that keep it**: all but the unlocking behind a link that was unlinked, which was not
the root. -/
def careful (s : Locked) (a : LockedAct) : Bool :=
  match a, s.call with
  | .go, .destroy _ .unlinked => false
  | _, _ => true

/-- **The invariant**: whoever is in a section holds the mutex, and nobody else does. -/
structure Inv (s : Locked) : Prop where
  used : s.misused = false
  service : s.mutex = some .service ↔ s.call.inside = true
  computation : s.mutex = some .computation ↔ s.insertAt ≠ .outside

/-! ## What a call does with the mutex -/

/-- **What an operation of a call can be.** -/
inductive Goes (s : Locked) : Locked → Prop
  /-- The mutex is left alone. -/
  | on {hook call} (hcall : call.inside = s.call.inside) : Goes s { s with hook, call }
  /-- It is taken. -/
  | lock {call} (hfree : s.mutex = none) (hcall : call.inside = true) :
    Goes s { s with mutex := some .service, call }
  /-- It is let go of at the end of a section. -/
  | release {call} (hinside : s.call.inside = true) (hcall : call.inside = false) :
    Goes s ((s.release .service).goto call)
  /-- It is let go of outside of any. -/
  | stray {t} (hd : s.call = .destroy t .unlinked) : Goes s ((s.release .service).goto .idle)

variable {s s' : Locked} {t : ℕ} {a : LockedAct}

theorem Goes.of_acquires {call : LinkCall} (hcall : call.inside = true)
    (hs : s.acquires call = some s') : Goes s s' := by
  obtain ⟨hfree, hs⟩ := Option.ite_none_right_eq_some.mp hs
  cases hs
  exact .lock hfree hcall

theorem goes_of_search {pc : SearchAt} (hpc : s.call = .search t pc)
    (hs : s.searchStep t pc = some s') : Goes s s' := by
  have hinside : s.call.inside = pc.inside := congrArg LinkCall.inside hpc
  cases pc with
  | enter => exact .of_acquires rfl hs
  | top =>
    cases hs
    exact .on hinside.symm
  | read dummy =>
    cases hs
    exact .release hinside rfl
  | walking dummy temp =>
    rcases temp with _ | temp
    · exact .of_acquires rfl hs
    · rw [searchStep] at hs
      split at hs <;> cases hs
      · exact .on hinside.symm
      · exact .on hinside.symm
  | check dummy =>
    rw [searchStep] at hs
    split at hs <;> cases hs
    · exact .on hinside.symm
    · exact .release hinside rfl
  | asleep => cases hs
  | woken => exact .of_acquires rfl hs

theorem goes_of_destroy {pc : DestroyAt} (hpc : s.call = .destroy t pc)
    (hs : s.destroyStep t pc = some s') : Goes s s' := by
  have hinside : s.call.inside = pc.inside := congrArg LinkCall.inside hpc
  cases pc with
  | enter => exact .of_acquires rfl hs
  | again =>
    cases hs
    exact .on hinside.symm
  | read rtemp =>
    cases hs
    exact .release hinside rfl
  | looked rtemp =>
    rcases rtemp with _ | rtemp
    · cases hs
    · rw [destroyStep] at hs
      split at hs <;> cases hs
      · exact .on hinside.symm
      · exact .on hinside.symm
  | freed rtemp temp => exact .of_acquires rfl hs
  | relocked rtemp temp =>
    rw [destroyStep] at hs
    split at hs
    · cases hs
      exact .on hinside.symm
    · obtain ⟨dummy, -, rfl⟩ := Option.map_eq_some_iff.mp hs
      exact .on hinside.symm
  | scanning rtemp temp dummy =>
    rw [destroyStep] at hs
    split at hs
    · cases hs
      exact .on hinside.symm
    · obtain ⟨dummy, -, rfl⟩ := Option.map_eq_some_iff.mp hs
      exact .on hinside.symm
  | leaving =>
    cases hs
    exact .release hinside rfl
  | walking rtemp temp =>
    obtain ⟨dummy, -, rfl⟩ := Option.map_eq_some_iff.mp hs
    split
    · exact .on hinside.symm
    · split
      · exact .on hinside.symm
      · exact .on hinside.symm
  | missed rtemp => exact .of_acquires rfl hs
  | check rtemp =>
    rw [destroyStep] at hs
    split at hs <;> cases hs
    · exact .on hinside.symm
    · exact .release hinside rfl
  | asleep => cases hs
  | woken => exact .of_acquires rfl hs
  | unlinked =>
    cases hs
    exact .stray hpc

theorem inside_signal (call : LinkCall) : call.signal.inside = call.inside := by
  rcases call with _ | ⟨t, pc⟩ | ⟨t, pc⟩
  · rfl
  · cases pc <;> rfl
  · cases pc <;> rfl

/-- **What an operation of an insertion can be.** -/
inductive Inserts (s : Locked) : Locked → Prop
  | lock (hat : s.insertAt = .outside) (hfree : s.mutex = none) :
    Inserts s { s with mutex := some .computation, insertAt := .locked }
  | link {b} (hat : s.insertAt = .locked) (hinsert : s.hook.insert = some b) :
    Inserts s { s with hook := s.hook.linked b, insertAt := .linked }
  | signal (hat : s.insertAt = .linked) :
    Inserts s { s with call := s.call.signal, insertAt := .signalled }
  | unlock (hat : s.insertAt = .signalled) :
    Inserts s { s.release .computation with insertAt := .outside }

theorem inserts (hs : s.insertStep s.insertAt = some s') : Inserts s s' := by
  cases hat : s.insertAt with
  | outside =>
    rw [hat] at hs
    obtain ⟨⟨hfree, -⟩, hs⟩ := Option.ite_none_right_eq_some.mp hs
    cases hs
    exact .lock hat hfree
  | locked =>
    rw [hat] at hs
    obtain ⟨b, hinsert, rfl⟩ := Option.map_eq_some_iff.mp hs
    exact .link hat hinsert
  | linked =>
    rw [hat] at hs
    cases hs
    exact .signal hat
  | signalled =>
    rw [hat] at hs
    cases hs
    exact .unlock hat

/-- **What a step can be**: an operation of a call, or one of an insertion. -/
inductive Moves (s : Locked) : LockedAct → Locked → Prop
  | goes {u : Locked} (hgoes : Goes s u) : Moves s .go u
  | inserts {u : Locked} (hinserts : Inserts s u) : Moves s .insert u
  | other {b : LockedAct} {hook call} (hcall : call.inside = s.call.inside) :
    Moves s b { s with hook, call }

theorem moves (hs : s.step a = some s') : Moves s a s' := by
  cases a with
  | malloc b next =>
    obtain ⟨-, hs⟩ := Option.ite_none_right_eq_some.mp hs
    obtain ⟨hook, -, rfl⟩ := Option.map_eq_some_iff.mp hs
    exact .other rfl
  | insert => exact .inserts (inserts hs)
  | search t =>
    obtain ⟨hidle, hs⟩ := Option.ite_none_right_eq_some.mp hs
    cases hs
    exact .other (by rw [hidle]; rfl)
  | destroy t =>
    obtain ⟨hidle, hs⟩ := Option.ite_none_right_eq_some.mp hs
    cases hs
    exact .other (by rw [hidle]; rfl)
  | go =>
    rw [step] at hs
    split at hs
    · cases hs
    · next hcall => exact .goes (goes_of_search hcall hs)
    · next hcall => exact .goes (goes_of_destroy hcall hs)
  | spurious =>
    rw [step] at hs
    split at hs
    · next hcall =>
      cases hs
      exact .other (by rw [hcall]; rfl)
    · next hcall =>
      cases hs
      exact .other (by rw [hcall]; rfl)
    · cases hs

/-! ## The discipline -/

theorem Initial.inv (h : s.Initial) : s.Inv where
  used := h.misused
  service := by simp [h.mutex, h.idle, LinkCall.inside]
  computation := by simp [h.mutex, h.outside]

namespace Inv

theorem disciplined (h : s.Inv) : s.Disciplined where
  used := h.used
  returned hidle hmutex := by
    have hinside := h.service.mp hmutex
    rw [hidle] at hinside
    cases hinside
  exclusive hat := by
    have hmutex := h.computation.mpr hat
    have hnot := mt h.service.mpr (by simp [hmutex])
    exact Bool.eq_false_iff.mpr hnot

/-- Nobody is in a section while the mutex is free. -/
theorem outside (h : s.Inv) (hfree : s.mutex = none) :
    s.call.inside = false ∧ s.insertAt = .outside := by
  refine ⟨Bool.eq_false_iff.mpr fun hinside => ?_, ?_⟩
  · have hmutex := h.service.mpr hinside
    rw [hfree] at hmutex
    cases hmutex
  · by_contra hat
    have hmutex := h.computation.mpr hat
    rw [hfree] at hmutex
    cases hmutex

/-- An operation of a call keeps it, unless it lets go of a mutex outside of any section. -/
theorem goes (h : s.Inv) (hcareful : s.careful .go = true) (hgoes : Goes s s') : s'.Inv := by
  cases hgoes with
  | on hcall => exact ⟨h.used, h.service.trans (by rw [hcall]), h.computation⟩
  | lock hfree hcall =>
    obtain ⟨-, hat⟩ := h.outside hfree
    exact ⟨h.used, by simp [hcall], by simp [hat]⟩
  | release hinside hcall =>
    have hmutex := h.service.mpr hinside
    have hat : s.insertAt = .outside := by
      by_contra hat
      rw [h.computation.mpr hat] at hmutex
      cases hmutex
    exact ⟨by simp [release, goto, h.used, hmutex], by simp [release, goto, hcall],
      by simp [release, goto, hat]⟩
  | stray hd => simp [careful, hd] at hcareful

/-- An operation of an insertion keeps it. -/
theorem inserts (h : s.Inv) (hinserts : Inserts s s') : s'.Inv := by
  cases hinserts with
  | lock _ hfree =>
    obtain ⟨hcall, -⟩ := h.outside hfree
    exact ⟨h.used, by simp [hcall], by simp⟩
  | link hat _ => exact ⟨h.used, h.service, h.computation.trans (by simp [hat])⟩
  | signal hat =>
    exact ⟨h.used, h.service.trans (by rw [inside_signal]), h.computation.trans (by simp [hat])⟩
  | unlock hat =>
    have hmutex := h.computation.mpr (by simp [hat])
    have hcall := h.disciplined.exclusive (by simp [hat])
    exact ⟨by simp [release, h.used, hmutex], by simp [release, hcall], by simp [release]⟩

/-- **A careful step keeps the invariant…** -/
theorem step (h : s.Inv) (hcareful : s.careful a = true) (hs : s.step a = some s') : s'.Inv := by
  cases moves hs with
  | goes hgoes => exact h.goes hcareful hgoes
  | inserts hinserts => exact h.inserts hinserts
  | other hcall => exact ⟨h.used, h.service.trans (by rw [hcall]), h.computation⟩

/-- **…and the other one is a misuse**: the mutex is free, or the insertion holds it. -/
theorem step_careless (h : s.Inv) (hcareful : ¬s.careful a = true) (hs : s.step a = some s') :
    ¬s'.Disciplined := by
  intro hdisciplined
  unfold careful at hcareful
  split at hcareful
  · next t hcall =>
    rw [Locked.step, hcall] at hs
    obtain rfl := Option.some.inj hs
    have hmutex := mt h.service.mp (by simp [hcall, LinkCall.inside, DestroyAt.inside])
    have hused := hdisciplined.used
    simp [release, goto, hmutex] at hused
  · exact hcareful rfl

end Inv

end Locked

/-- **The lock discipline of the link table**: in every run of searches, destructions and
insertions, on any list, it is kept in all states exactly if no destruction unlocks behind a link
that it has unlinked and that was not the root. -/
theorem lock_discipline_iff {s₀ s : Locked} {acts : List LockedAct} (hinit : s₀.Initial)
    (hrun : run Locked.step s₀ acts = some s) :
    Along Locked.step Locked.Disciplined s₀ acts ↔
      (run (restrict (fun s a => s.careful a = true) Locked.step) s₀ acts).isSome :=
  along_iff (fun _ h => h.disciplined) (fun _ _ _ h hok hs => h.step hok hs)
    (fun _ _ _ h hok hs => h.step_careless hok hs) hinit.inv hrun

/-- The list of two links, and a link of tag 2 to be inserted; nobody holds the mutex. -/
def Locked.double : Locked :=
  ⟨{ mem := fun a => if a = 0 then ⟨⟨0, 0⟩, some 1⟩ else ⟨⟨1, 1⟩, none⟩
     live := fun a => a < 2
     root := some 0
     todo := [⟨2, 2⟩]
     insert := none
     destroy := .start },
    .outside, .idle, none, false⟩

theorem Locked.double_initial : Locked.double.Initial := ⟨rfl, rfl, rfl, rfl⟩

/-- A search for the second link, the insertion in its middle, and the destruction of the root. -/
theorem lock_discipline_iff_root : Along Locked.step Locked.Disciplined .double
    [.malloc 2 none, .search 1, .go, .go, .go, .go, .insert, .go, .insert, .insert, .insert,
      .destroy 2, .go, .go, .go, .go, .go, .go, .go] := by
  have hrun : run Locked.step .double
      [.malloc 2 none, .search 1, .go, .go, .go, .go, .insert, .go, .insert, .insert, .insert,
        .destroy 2, .go, .go, .go, .go, .go, .go, .go] = some _ := rfl
  exact (lock_discipline_iff Locked.double_initial hrun).mpr rfl

/-- **A link behind the root is destroyed while an insertion holds the mutex**: the mutex is
unlocked, and the search that follows enters a section of its own beside the insertion's. -/
theorem lock_misused : Locked.double.Initial ∧ ∃ s, run Locked.step .double
      [.malloc 2 none, .destroy 1, .go, .go, .go, .go, .go, .insert, .go, .search 0, .go] = some s ∧
    s.misused = true ∧ s.insertAt = .locked ∧ s.call.inside = true ∧ ¬s.Disciplined :=
  ⟨Locked.double_initial, _, rfl, rfl, rfl, rfl, fun h => Bool.noConfusion h.used⟩

end Libdsys
