import Mathlib.Data.Fintype.Card
import Mathlib.Logic.Function.Basic

/-!
# Machinery/SlotLog — a log written through a bounded window

The purpose of a slot buffer, without the buffer: a writer appends items to a log, cursors read it
in order, and at most `du` slots stand between the writer and the slowest cursor.  An append is in
two halves — the item is *committed*, and it is *released* to the cursors once the slot after it is
free — so the last item of a held log is committed and not yet readable.

* `Wf.take` / `Wf.commit` / `Wf.release` — what each step keeps.
* `pending` — how many cursors have an item still to read: what a slot's counter counts.
-/

namespace Machinery

/-- A log with its cursors. -/
structure SlotLog (β ι : Type*) where
  /-- The committed items, oldest first. -/
  items : List β
  /-- The last commit has not been released. -/
  held : Bool
  /-- How many items each cursor has read. -/
  read : ι → ℕ

namespace SlotLog

variable {β ι : Type*} {du : ℕ} {l : SlotLog β ι}

/-- The empty log. -/
def empty (β ι : Type*) : SlotLog β ι := ⟨[], false, fun _ => 0⟩

/-- How many items are released. -/
def released (l : SlotLog β ι) : ℕ := l.items.length - l.held.toNat

/-- **The slot after the last committed item is free**: no cursor has yet to read what it holds. -/
def Free (du : ℕ) (l : SlotLog β ι) : Prop := ∀ k, l.items.length < l.read k + du

/-- The first half of an append. -/
def commit (l : SlotLog β ι) (v : β) : SlotLog β ι :=
  { l with items := l.items ++ [v], held := true }

/-- The second half. -/
def release (l : SlotLog β ι) : SlotLog β ι := { l with held := false }

/-- Cursor `k` reads an item. -/
def take [DecidableEq ι] (l : SlotLog β ι) (k : ι) : SlotLog β ι :=
  { l with read := Function.update l.read k (l.read k + 1) }

@[simp] theorem released_of_held (h : l.held = true) : l.released = l.items.length - 1 := by
  rw [released, h]
  rfl

@[simp] theorem released_of_not_held (h : l.held = false) : l.released = l.items.length := by
  rw [released, h]
  rfl

@[simp] theorem length_items_commit (v : β) : (l.commit v).items.length = l.items.length + 1 :=
  List.length_append

@[simp] theorem released_commit (v : β) : (l.commit v).released = l.items.length := by
  rw [released_of_held rfl, length_items_commit, Nat.add_sub_cancel]

@[simp] theorem released_release : l.release.released = l.items.length := released_of_not_held rfl

@[simp] theorem items_take [DecidableEq ι] (k : ι) : (l.take k).items = l.items := rfl

@[simp] theorem held_take [DecidableEq ι] (k : ι) : (l.take k).held = l.held := rfl

@[simp] theorem read_take_self [DecidableEq ι] (k : ι) : (l.take k).read k = l.read k + 1 :=
  Function.update_self k _ _

@[simp] theorem read_take_of_ne [DecidableEq ι] {j k : ι} (h : j ≠ k) :
    (l.take k).read j = l.read j := Function.update_of_ne h _ _

theorem released_le : l.released ≤ l.items.length := Nat.sub_le _ _

/-- **The window**: no cursor is ahead of what is released, none is `du` items behind. -/
structure Wf (du : ℕ) (l : SlotLog β ι) : Prop where
  pos : 0 < du
  held_ne_nil : l.held = true → 0 < l.items.length
  read_le : ∀ k, l.read k ≤ l.released
  room : ∀ k, l.items.length ≤ l.read k + du
  free : l.held = false → l.Free du

theorem wf_empty (h : 0 < du) : (empty β ι).Wf du where
  pos := h
  held_ne_nil := fun h => Bool.noConfusion h
  read_le _ := Nat.le_refl _
  room _ := Nat.zero_le _
  free _ _ := Nat.add_pos_right _ h

theorem Wf.commit (h : l.Wf du) (hheld : l.held = false) (v : β) : (l.commit v).Wf du where
  pos := h.pos
  held_ne_nil := fun _ => by rw [length_items_commit]; exact Nat.succ_pos _
  read_le k := by
    rw [released_commit]
    exact (h.read_le k).trans released_le
  room k := by
    rw [length_items_commit]
    exact h.free hheld k
  free := fun h => Bool.noConfusion h

theorem Wf.release (h : l.Wf du) (hfree : l.Free du) : l.release.Wf du where
  pos := h.pos
  held_ne_nil := fun h => Bool.noConfusion h
  read_le k := by
    rw [released_release]
    exact (h.read_le k).trans released_le
  room k := (hfree k).le
  free _ := hfree

theorem Wf.take [DecidableEq ι] (h : l.Wf du) {k : ι} (hk : l.read k < l.released) :
    (l.take k).Wf du where
  pos := h.pos
  held_ne_nil := h.held_ne_nil
  read_le j := by
    rcases eq_or_ne j k with rfl | hne
    · rw [read_take_self]
      exact hk
    · rw [read_take_of_ne hne]
      exact h.read_le j
  room j := by
    have := h.room j
    rcases eq_or_ne j k with rfl | hne
    · rw [read_take_self, items_take]
      omega
    · rwa [read_take_of_ne hne]
  free hheld j := by
    have := h.free hheld j
    rcases eq_or_ne j k with rfl | hne
    · rw [read_take_self, items_take]
      omega
    · rwa [read_take_of_ne hne]

/-- A released item some cursor has not read stands in a slot of its own: the released count and
the cursor differ by less than `du`. -/
theorem Wf.released_lt (h : l.Wf du) (k : ι) : l.released < l.read k + du := by
  have := h.pos
  cases hheld : l.held with
  | true =>
    have := h.room k
    have := h.held_ne_nil hheld
    rw [released_of_held hheld]
    omega
  | false =>
    rw [released_of_not_held hheld]
    exact h.free hheld k

/-! ## Counting the cursors that have an item still to read -/

section Pending

variable [Fintype ι]

/-- How many cursors have not read item `j`. -/
def pending (l : SlotLog β ι) (j : ℕ) : ℕ := (Finset.univ.filter fun k => l.read k ≤ j).card

theorem pending_pos_iff {j : ℕ} : 0 < l.pending j ↔ ∃ k, l.read k ≤ j := by
  rw [pending, Finset.card_pos]
  exact ⟨fun ⟨k, hk⟩ => ⟨k, (Finset.mem_filter.mp hk).2⟩,
    fun ⟨k, hk⟩ => ⟨k, Finset.mem_filter.mpr ⟨Finset.mem_univ k, hk⟩⟩⟩

theorem pending_eq_zero_iff {j : ℕ} : l.pending j = 0 ↔ ∀ k, j < l.read k := by
  rw [← not_iff_not, ← ne_eq, ← Nat.pos_iff_ne_zero, pending_pos_iff, not_forall]
  exact exists_congr fun _ => not_lt.symm

/-- A new item is pending for every cursor. -/
theorem Wf.pending_length (h : l.Wf du) : l.pending l.items.length = Fintype.card ι := by
  rw [pending, Finset.filter_true_of_mem fun k _ => (h.read_le k).trans released_le,
    Finset.card_univ]

/-- Reading an item takes one cursor off it… -/
theorem pending_take_self [DecidableEq ι] (k : ι) :
    (l.take k).pending (l.read k) = l.pending (l.read k) - 1 := by
  have herase : (Finset.univ.filter fun j => (l.take k).read j ≤ l.read k)
      = (Finset.univ.filter fun j => l.read j ≤ l.read k).erase k := by
    refine Finset.ext fun j => ?_
    rw [Finset.mem_erase, Finset.mem_filter, Finset.mem_filter]
    rcases eq_or_ne j k with rfl | hne
    · rw [read_take_self]
      simp
    · rw [read_take_of_ne hne]
      simp [hne]
  rw [pending, herase, Finset.card_erase_of_mem (by simp), pending]

/-- …and no cursor off another. -/
theorem pending_take_of_ne [DecidableEq ι] {k : ι} {j : ℕ} (hj : j ≠ l.read k) :
    (l.take k).pending j = l.pending j := by
  refine congrArg Finset.card (Finset.filter_congr fun i _ => ?_)
  rcases eq_or_ne i k with rfl | hne
  · rw [read_take_self]
    omega
  · rw [read_take_of_ne hne]

end Pending

end SlotLog

end Machinery
