import Mathlib.Tactic.TypeStar

/-!
# Machinery/Monitor — where a thread stands in a call that may wait

A call holds the monitor's lock except while it sleeps on the condition variable.  A signal or a
broadcast turns a sleeper into one whose wake-up is pending; a woken thread looks at its condition
again, so a wake-up without a signal only repeats that.
-/

namespace Machinery

/-- A thread between calls, asleep in one, or woken in one and about to try again. -/
inductive Thread (κ : Type*)
  | idle
  | asleep (call : κ)
  | woken (call : κ)
deriving DecidableEq

namespace Thread

variable {κ : Type*}

/-- The thread sleeps and no wake-up of it is pending. -/
def isAsleep : Thread κ → Bool
  | asleep _ => true
  | _ => false

/-- A signal that reaches the thread — it does nothing unless the thread sleeps. -/
def wake : Thread κ → Thread κ
  | asleep k => woken k
  | t => t

@[simp] theorem isAsleep_idle : (idle : Thread κ).isAsleep = false := rfl

@[simp] theorem isAsleep_asleep (k : κ) : (asleep k).isAsleep = true := rfl

@[simp] theorem isAsleep_woken (k : κ) : (woken k).isAsleep = false := rfl

@[simp] theorem isAsleep_wake (t : Thread κ) : t.wake.isAsleep = false := by cases t <;> rfl

/-- The call a thread is inside of. -/
def call? : Thread κ → Option κ
  | idle => none
  | asleep k => some k
  | woken k => some k

@[simp] theorem call?_idle : (idle : Thread κ).call? = none := rfl

@[simp] theorem call?_asleep (k : κ) : (asleep k).call? = some k := rfl

@[simp] theorem call?_woken (k : κ) : (woken k).call? = some k := rfl

@[simp] theorem call?_wake (t : Thread κ) : t.wake.call? = t.call? := by cases t <;> rfl

end Thread

end Machinery
