import Mathlib.Data.List.Nodup
import Mathlib.Data.List.Induction
import Mathlib.Data.List.Infix
import Mathlib.Order.Basic

/-!
# Machinery/Tally — values in the order they are first met, and how often

A list that takes up what it does not have yet is what it started with, followed by the first
occurrences of everything else.  A tally also counts: the entry that is found for a value goes up,
and a value without one gets an entry.

* `foldl_addNew` — what such a list comes to.
* `foldl_bump` — what a tally comes to.
-/

namespace Machinery

variable {α : Type*} [DecidableEq α]

/-! ## First occurrences -/

theorem nodup_eraseDups (l : List α) : l.eraseDups.Nodup := by
  induction hn : l.length using Nat.strong_induction_on generalizing l with
  | _ n ih =>
    cases l with
    | nil => exact List.nodup_nil
    | cons x l =>
      rw [List.eraseDups_cons, List.nodup_cons]
      have hle := List.length_filter_le (fun y => !y == x) l
      rw [List.length_cons] at hn
      exact ⟨by simp [List.mem_eraseDups], ih _ (by omega) _ rfl⟩

/-- `x` behind the list, unless it is in it. -/
def addNew (acc : List α) (x : α) : List α := if x ∈ acc then acc else acc ++ [x]

/-- **A list that takes up what it does not have** is followed by the first occurrences of the
rest. -/
theorem foldl_addNew (acc xs : List α) :
    xs.foldl addNew acc = acc ++ (xs.filter (· ∉ acc)).eraseDups := by
  induction xs generalizing acc with
  | nil => simp
  | cons x xs ih =>
    rw [List.foldl_cons, ih, addNew]
    by_cases hx : x ∈ acc
    · simp [hx]
    · have hrest : xs.filter (· ∉ acc ++ [x]) = (xs.filter (· ∉ acc)).filter fun y => !y == x := by
        rw [List.filter_filter]
        refine List.filter_congr fun y _ => ?_
        by_cases hyx : y = x <;> simp [hyx]
      rw [if_neg hx, List.filter_cons_of_pos (by simpa using hx), List.eraseDups_cons, hrest,
        List.append_assoc, List.singleton_append]

theorem mem_foldl_addNew {acc xs : List α} {x : α} :
    x ∈ xs.foldl addNew acc ↔ x ∈ acc ∨ x ∈ xs := by
  rw [foldl_addNew, List.mem_append, List.mem_eraseDups, List.mem_filter]
  by_cases hx : x ∈ acc <;> simp [hx]

theorem nodup_foldl_addNew {acc : List α} (h : acc.Nodup) (xs : List α) :
    (xs.foldl addNew acc).Nodup := by
  rw [foldl_addNew]
  refine h.append (nodup_eraseDups _) fun x hx hx' => ?_
  rw [List.mem_eraseDups, List.mem_filter] at hx'
  simp [hx] at hx'

theorem length_foldl_addNew_le (acc xs : List α) :
    (xs.foldl addNew acc).length ≤ acc.length + xs.length := by
  induction xs generalizing acc with
  | nil => exact le_refl _
  | cons x xs ih =>
    have hle : (addNew acc x).length ≤ acc.length + 1 := by
      rw [addNew]
      split <;> simp
    rw [List.foldl_cons, List.length_cons]
    exact (ih _).trans (by omega)

theorem length_le_foldl_addNew (acc xs : List α) :
    acc.length ≤ (xs.foldl addNew acc).length := by
  rw [foldl_addNew, List.length_append]
  exact Nat.le_add_right _ _

/-! ## Tallies -/

/-- The first entry for `x` goes up, or there is a new one. -/
def bump (x : α) : List (α × ℕ) → List (α × ℕ)
  | [] => [(x, 1)]
  | (y, n) :: ps => if y = x then (y, n + 1) :: ps else (y, n) :: bump x ps

theorem bump_of_not_mem {x : α} {ps : List (α × ℕ)} (h : x ∉ ps.map Prod.fst) :
    bump x ps = ps ++ [(x, 1)] := by
  induction ps with
  | nil => rfl
  | cons p ps ih =>
    obtain ⟨y, n⟩ := p
    rw [List.map_cons, List.mem_cons, not_or] at h
    rw [bump, if_neg (Ne.symm h.1), ih h.2, List.cons_append]

theorem exists_bump_of_mem {x : α} {ps : List (α × ℕ)} (h : x ∈ ps.map Prod.fst) :
    ∃ before n after, ps = before ++ (x, n) :: after ∧ x ∉ before.map Prod.fst ∧
      bump x ps = before ++ (x, n + 1) :: after := by
  induction ps with
  | nil => cases h
  | cons p ps ih =>
    obtain ⟨y, n⟩ := p
    by_cases hyx : y = x
    · subst hyx
      exact ⟨[], n, ps, rfl, List.not_mem_nil, if_pos rfl⟩
    · rw [List.map_cons, List.mem_cons] at h
      obtain ⟨before, m, after, rfl, hbefore, hbump⟩ := ih (h.resolve_left (Ne.symm hyx))
      refine ⟨(y, n) :: before, m, after, rfl, ?_, ?_⟩
      · exact List.not_mem_cons_of_ne_of_not_mem (Ne.symm hyx) hbefore
      · rw [bump, if_neg hyx, hbump, List.cons_append]

/-- The values of `keys` with `f` of them where they are met first, and 1 elsewhere; those of `seen`
were met before. -/
def markFirst (f : α → ℕ) : List α → List α → List (α × ℕ)
  | _, [] => []
  | seen, y :: ys => (y, if y ∈ seen then 1 else f y) :: markFirst f (y :: seen) ys

variable {f g : α → ℕ} {seen keys : List α} {x : α}

theorem markFirst_congr (h : ∀ y, y ∉ seen → y ∈ keys → f y = g y) :
    markFirst f seen keys = markFirst g seen keys := by
  induction keys generalizing seen with
  | nil => rfl
  | cons y ys ih =>
    have hy : (if y ∈ seen then 1 else f y) = if y ∈ seen then 1 else g y := by
      split
      · rfl
      · next hy => exact h y hy List.mem_cons_self
    rw [markFirst, markFirst, hy, ih]
    intro z hz hmem
    exact h z (List.not_mem_of_not_mem_cons hz) (List.mem_cons_of_mem _ hmem)

/-- What a tally is after it went up. -/
theorem bump_markFirst (hseen : x ∉ seen) (hnew : x ∉ keys → f x = 0)
    (hf : ∀ y, g y = f y + if y = x then 1 else 0) :
    bump x (markFirst f seen keys) = markFirst g seen (addNew keys x) := by
  induction keys generalizing seen with
  | nil => simp [markFirst, bump, addNew, hseen, hf, hnew]
  | cons y ys ih =>
    rw [markFirst, bump]
    by_cases hyx : y = x
    · subst hyx
      rw [if_pos rfl, addNew, if_pos List.mem_cons_self, markFirst, if_neg hseen, if_neg hseen,
        hf y, if_pos rfl]
      refine congrArg _ (markFirst_congr fun z hz _ => ?_)
      rw [hf z, if_neg (List.ne_of_not_mem_cons hz), Nat.add_zero]
    · have hadd : addNew (y :: ys) x = y :: addNew ys x := by
        by_cases hx : x ∈ ys <;> simp [addNew, hx, Ne.symm hyx]
      have hnew' : x ∉ ys → f x = 0 := fun hx =>
        hnew (List.not_mem_cons_of_ne_of_not_mem (Ne.symm hyx) hx)
      rw [if_neg hyx, hadd, markFirst, hf y, if_neg hyx, Nat.add_zero,
        ih (List.not_mem_cons_of_ne_of_not_mem (Ne.symm hyx) hseen) hnew']

/-- How often `x` is met, the values at the start counted once. -/
def occurrences (acc xs : List α) (x : α) : ℕ := (if x ∈ acc then 1 else 0) + xs.count x

/-- **What a tally comes to.** -/
theorem foldl_bump (acc xs : List α) :
    xs.foldl (fun ps x => bump x ps) (acc.map fun y => (y, 1)) =
      markFirst (occurrences acc xs) [] (xs.foldl addNew acc) := by
  induction xs using List.reverseRecOn with
  | nil =>
    have hones (seen ys : List α) (f : α → ℕ) (h : ∀ y ∈ ys, f y = 1) :
        ys.map (fun y => (y, 1)) = markFirst f seen ys := by
      induction ys generalizing seen with
      | nil => rfl
      | cons y ys ih =>
        rw [List.map_cons, markFirst, h y List.mem_cons_self, ite_self,
          ih (y :: seen) fun z hz => h z (List.mem_cons_of_mem _ hz)]
    exact hones [] acc _ fun y hy => by simp [occurrences, hy]
  | append_singleton xs x ih =>
    rw [List.foldl_append, ih, List.foldl_append]
    refine bump_markFirst List.not_mem_nil (fun hx => ?_) fun y => ?_
    · rw [mem_foldl_addNew, not_or] at hx
      simp [occurrences, hx.1, List.count_eq_zero.mpr hx.2]
    · simp only [occurrences, List.count_append, List.count_singleton, beq_iff_eq, Nat.add_assoc,
        eq_comm (a := y)]

end Machinery
