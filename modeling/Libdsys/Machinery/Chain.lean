import Mathlib.Data.List.Nodup
import Mathlib.Logic.Function.Basic

/-!
# Machinery/Chain — a list threaded through memory

`Chain next r as e`: following `next` from the pointer `r` goes through the cells `as` and arrives
at `e`.  The pointer `none` ends a list.  A chain that ends is acyclic, and depends on the cells it
goes through and on no other.

* `chain_append` — a chain splits where its list does.
* `Chain.congr` — the frame rule.
* `Chain.nodup` — no cell is met twice.
* `Chain.cut` — a cell that is bypassed is the only one to go.
-/

namespace Machinery

variable {α : Type*} {next next' : α → Option α}

/-- From `r` through the cells `as` to `e`. -/
def Chain (next : α → Option α) : Option α → List α → Option α → Prop
  | r, [], e => r = e
  | r, a :: as, e => r = some a ∧ Chain next (next a) as e

variable {r e m : Option α} {a b : α} {as bs : List α}

@[simp] theorem chain_nil : Chain next r [] e ↔ r = e := Iff.rfl

@[simp] theorem chain_cons : Chain next r (a :: as) e ↔ r = some a ∧ Chain next (next a) as e :=
  Iff.rfl

theorem chain_append :
    Chain next r (as ++ bs) e ↔ ∃ m, Chain next r as m ∧ Chain next m bs e := by
  induction as generalizing r with
  | nil => simp
  | cons a as ih => simp [ih, and_assoc]

/-- **The frame rule**: a chain depends on the cells it goes through. -/
theorem Chain.congr (h : Chain next r as e) (hsame : ∀ a ∈ as, next' a = next a) :
    Chain next' r as e := by
  induction as generalizing r with
  | nil => exact h
  | cons a as ih =>
    obtain ⟨rfl, hrest⟩ := h
    refine ⟨rfl, ?_⟩
    rw [hsame a List.mem_cons_self]
    exact ih hrest fun b hb => hsame b (List.mem_cons_of_mem _ hb)

/-- Where a chain ends, it is determined by its start. -/
theorem Chain.unique (h : Chain next r as none) (h' : Chain next r bs none) : as = bs := by
  induction as generalizing r bs with
  | nil =>
    obtain rfl : r = none := h
    cases bs with
    | nil => rfl
    | cons b bs => exact absurd h'.1 (by simp)
  | cons a as ih =>
    obtain ⟨rfl, hrest⟩ := h
    cases bs with
    | nil => exact absurd (show some a = none from h') (by simp)
    | cons b bs =>
      obtain ⟨hab, hrest'⟩ := h'
      obtain rfl := Option.some.inj hab
      rw [ih hrest hrest']

/-- **A chain that ends is acyclic.** -/
theorem Chain.nodup (h : Chain next r as none) : as.Nodup := by
  induction as generalizing r with
  | nil => exact List.nodup_nil
  | cons a as ih =>
    obtain ⟨rfl, hrest⟩ := h
    refine List.nodup_cons.mpr ⟨fun hmem => ?_, ih hrest⟩
    obtain ⟨us, vs, rfl⟩ := List.append_of_mem hmem
    obtain ⟨m, -, hm, htail⟩ := chain_append.mp hrest
    -- the same cell would start two chains of different lengths
    have hlen := congrArg List.length (hrest.unique htail)
    rw [List.length_append, List.length_cons] at hlen
    omega

variable [DecidableEq α]

/-- A cell off the chain may be written. -/
theorem Chain.update (h : Chain next r as e) (ha : a ∉ as) (v : Option α) :
    Chain (Function.update next a v) r as e :=
  h.congr fun _ hb => Function.update_of_ne (ne_of_mem_of_not_mem hb ha) _ _

/-- **Redirecting a cell cuts the chain there** and joins it to another one. -/
theorem Chain.redirect (h : Chain next r (as ++ [a]) m) (hnodup : (as ++ [a]).Nodup) {v : Option α}
    (hrest : Chain next v bs e) (ha : a ∉ bs) :
    Chain (Function.update next a v) r (as ++ a :: bs) e := by
  have hnot : a ∉ as := fun hmem =>
    (List.nodup_append.mp hnodup).2.2 a hmem a List.mem_cons_self rfl
  obtain ⟨m', has, rfl, -⟩ := chain_append.mp h
  refine chain_append.mpr ⟨some a, has.update hnot v, rfl, ?_⟩
  rw [Function.update_self]
  exact hrest.update ha v

/-- **Bypassing a cell removes it and no other.** -/
theorem Chain.cut (h : Chain next r (as ++ a :: b :: bs) e) (hnodup : (as ++ a :: b :: bs).Nodup) :
    Chain (Function.update next a (next b)) r (as ++ a :: bs) e := by
  have hsplit : as ++ a :: b :: bs = (as ++ [a]) ++ b :: bs := by simp
  rw [hsplit] at h hnodup
  obtain ⟨m, hpre, -, hpost⟩ := chain_append.mp h
  obtain ⟨hpre', -, hdisj⟩ := List.nodup_append.mp hnodup
  refine hpre.redirect hpre' hpost fun ha => ?_
  exact hdisj a (by simp) a (List.mem_cons_of_mem _ ha) rfl

end Machinery
