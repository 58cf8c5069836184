import Mathlib.Data.List.Basic

/-!
# Machinery/Fifo — bounded first-in first-out buffers

What a bounded buffer is for: `put?` appends a block of items if all of them fit, `take?` removes
the oldest `n` if there are so many.  The bound is a field, so an overfull buffer cannot be built.
-/

namespace Machinery

/-- A queue of at most `cap` items. -/
structure Fifo (β : Type*) (cap : ℕ) where
  /-- The items, oldest first. -/
  items : List β
  /-- They fit. -/
  fits : items.length ≤ cap

namespace Fifo

variable {β : Type*} {cap : ℕ}

@[ext] theorem ext {f g : Fifo β cap} (h : f.items = g.items) : f = g := by
  obtain ⟨_, _⟩ := f
  obtain ⟨_, _⟩ := g
  obtain rfl := h
  rfl

/-- The empty buffer. -/
def empty (β : Type*) (cap : ℕ) : Fifo β cap := ⟨[], Nat.zero_le _⟩

/-- Append a block — all of it or, when it does not fit, nothing. -/
def put? (f : Fifo β cap) (bs : List β) : Option (Fifo β cap) :=
  if h : f.items.length + bs.length ≤ cap then
    some ⟨f.items ++ bs, by rw [List.length_append]; exact h⟩
  else none

/-- Remove the oldest `n` items — all of them or, when there are fewer, none. -/
def take? (f : Fifo β cap) (n : ℕ) : Option (List β × Fifo β cap) :=
  if n ≤ f.items.length then
    some (f.items.take n, ⟨f.items.drop n, by
      rw [List.length_drop]; exact Nat.le_trans (Nat.sub_le _ _) f.fits⟩)
  else none

end Fifo

end Machinery
