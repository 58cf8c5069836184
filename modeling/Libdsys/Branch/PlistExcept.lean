import Libdsys.Branch.PlistHeap

/-!
# Branch/PlistExcept — the exclusion form of `bc_plist_create`

A negative count names the ranks to leave out.  They are sorted, and the values between two of them
are entered, before the first and behind the last: the value to enter next is as far ahead of the
place for it as there are ranks left out so far.

* `excluded_ranks` — the list has the other ranks, in ascending order, whatever the order of the
  arguments.
-/

open Machinery

namespace Libdsys

variable {s e size r : ℤ} {args out rest : List ℤ}

/-- The values from `s` on, up to `e`. -/
def valuesBetween (s e : ℤ) : List ℤ := (List.range (e - s).toNat).map fun i : ℕ => s + i

theorem mem_valuesBetween : r ∈ valuesBetween s e ↔ s ≤ r ∧ r < e := by
  rw [valuesBetween, List.mem_map]
  constructor
  · rintro ⟨i, hi, rfl⟩
    rw [List.mem_range] at hi
    omega
  · rintro ⟨hs, he⟩
    exact ⟨(r - s).toNat, List.mem_range.mpr (by omega), by omega⟩

theorem length_valuesBetween (s e : ℤ) : (valuesBetween s e).length = (e - s).toNat := by
  rw [valuesBetween, List.length_map, List.length_range]

theorem pairwise_valuesBetween (s e : ℤ) : (valuesBetween s e).Pairwise (· < ·) := by
  refine List.pairwise_map.mpr (List.pairwise_lt_range.imp fun {i j} hij => ?_)
  omega

/-- What is entered from `s` on, where the ranks `args` are left out. -/
def otherValues (size : ℤ) : List ℤ → ℤ → List ℤ
  | [], s => valuesBetween s size
  | e :: args, s => valuesBetween s e ++ otherValues size args (e + 1)

/-- Sorted ranks below `size`, from `s` on. -/
def RanksFrom (size s : ℤ) (args : List ℤ) : Prop :=
  args.Pairwise (· < ·) ∧ ∀ e ∈ args, s ≤ e ∧ e < size

theorem RanksFrom.tail (h : RanksFrom size s (e :: args)) : RanksFrom size (e + 1) args := by
  obtain ⟨hsorted, hin⟩ := h
  obtain ⟨hlt, hsorted⟩ := List.pairwise_cons.mp hsorted
  exact ⟨hsorted, fun x hx => ⟨hlt x hx, (hin x (List.mem_cons_of_mem _ hx)).2⟩⟩

theorem mem_otherValues (h : RanksFrom size s args) :
    r ∈ otherValues size args s ↔ (s ≤ r ∧ r < size) ∧ r ∉ args := by
  induction args generalizing s with
  | nil => simp [otherValues, mem_valuesBetween]
  | cons e args ih =>
    obtain ⟨hs, he⟩ := h.2 e List.mem_cons_self
    have habove : r ∈ args → e < r := fun hr => h.tail.2 r hr |>.1
    rw [otherValues, List.mem_append, mem_valuesBetween, ih h.tail, List.mem_cons, not_or]
    by_cases hr : r ∈ args
    · have hlt := habove hr
      simp only [hr, not_true_eq_false, and_false, or_false, iff_false]
      omega
    · simp only [hr, not_false_eq_true, and_true]
      omega

theorem pairwise_otherValues (h : RanksFrom size s args) :
    (otherValues size args s).Pairwise (· < ·) := by
  induction args generalizing s with
  | nil => exact pairwise_valuesBetween s size
  | cons e args ih =>
    refine List.pairwise_append.mpr ⟨pairwise_valuesBetween s e, ih h.tail, fun x hx y hy => ?_⟩
    have hxe := (mem_valuesBetween.mp hx).2
    have hey := ((mem_otherValues h.tail).mp hy).1.1
    omega

/-- As many as there are left. -/
theorem length_otherValues (h : RanksFrom size s args) :
    ((otherValues size args s).length : ℤ) + args.length = max (size - s) 0 := by
  induction args generalizing s with
  | nil =>
    rw [otherValues, length_valuesBetween, List.length_nil]
    omega
  | cons e args ih =>
    obtain ⟨hs, he⟩ := h.2 e List.mem_cons_self
    have hrest := ih h.tail
    rw [otherValues, List.length_append, length_valuesBetween, List.length_cons]
    omega

/-! ## The loops -/

/-- Values are entered behind those that are there. -/
theorem fillUpTo_eq {n : ℕ} (h : n ≤ rest.length) :
    fillUpTo n s out.length (out ++ rest) = some (s + n, out.length + n,
      out ++ valuesBetween s (s + n) ++ rest.drop n) := by
  induction n generalizing s out rest with
  | zero => simp [fillUpTo, valuesBetween]
  | succ n ih =>
    obtain ⟨x, rest, rfl⟩ := List.exists_cons_of_length_pos (Nat.zero_lt_of_lt h)
    have hnext : (out ++ [s]).length = out.length + 1 := by simp
    have hvalues : valuesBetween s (s + (n + 1 : ℕ)) = s :: valuesBetween (s + 1) (s + 1 + n) := by
      have hlong : (s + (n + 1 : ℕ) - s).toNat = n + 1 := by omega
      have hshort : (s + 1 + n - (s + 1)).toNat = n := by omega
      rw [valuesBetween, valuesBetween, hlong, hshort, List.range_succ_eq_map, List.map_cons,
        List.map_map]
      refine congrArg₂ List.cons (by simp) (List.map_congr_left fun i _ => ?_)
      rw [Function.comp_apply]
      omega
    rw [fillUpTo, writeAt_append, Option.bind_eq_bind, Option.bind_some, ← hnext,
      ih (Nat.le_of_succ_le_succ h), hvalues, hnext]
    simp only [List.append_assoc, List.cons_append, List.nil_append, List.drop_succ_cons]
    push_cast
    rw [add_assoc s 1, add_comm (1 : ℤ), add_assoc out.length, add_comm 1]

/-- **The loop that enters values, and the one behind it**, enter the values that are not left
out. -/
theorem fillBetween_bind (h : RanksFrom size s args)
    (hroom : (otherValues size args s).length ≤ rest.length) :
    ∃ s' j', ((fillBetween args s out.length (out ++ rest)).bind fun x =>
      fillUpTo (size - x.1).toNat x.1 x.2.1 x.2.2) = some (s', j',
        out ++ otherValues size args s ++ rest.drop (otherValues size args s).length) := by
  induction args generalizing s out rest with
  | nil =>
    rw [otherValues, length_valuesBetween] at hroom ⊢
    have hfill := @fillUpTo_eq s out rest _ hroom
    have hvalues : valuesBetween s (s + (size - s).toNat) = valuesBetween s size := by
      have hlong : (s + (size - s).toNat - s).toNat = (size - s).toNat := by omega
      rw [valuesBetween, hlong, valuesBetween]
    rw [hvalues] at hfill
    exact ⟨_, _, hfill⟩
  | cons e args ih =>
    obtain ⟨hs, he⟩ := h.2 e List.mem_cons_self
    rw [otherValues, List.length_append, length_valuesBetween] at hroom
    have hfirst := @fillUpTo_eq s out rest (e - s).toNat (by omega)
    have hend : s + (e - s).toNat = e := by omega
    rw [hend] at hfirst
    have hlength : (out ++ valuesBetween s e).length = out.length + (e - s).toNat := by
      rw [List.length_append, length_valuesBetween]
    obtain ⟨s', j', hrest⟩ := @ih (e + 1) (out ++ valuesBetween s e) (rest.drop (e - s).toNat)
      h.tail (by rw [List.length_drop]; omega)
    refine ⟨s', j', ?_⟩
    rw [fillBetween, hfirst, Option.bind_eq_bind, Option.bind_some, ← hlength]
    refine hrest.trans ?_
    rw [otherValues, List.drop_drop, List.length_append, length_valuesBetween,
      List.append_assoc out]

/-! ## The list -/

theorem compareLe_iff {a b : ℤ} (ha : 0 ≤ a ∧ a < 2 ^ 31) (hb : 0 ≤ b ∧ b < 2 ^ 31) :
    compareLe a b = true ↔ a ≤ b := by
  rw [compareLe, intAdd_of_lt (by omega) (by omega), decide_eq_true_iff]
  omega

/-- **What is sorted by `compare`** is sorted. -/
theorem insertionSort_compareLe (h : ∀ r ∈ args, 0 ≤ r ∧ r < 2 ^ 31) :
    args.insertionSort (compareLe · ·) = args.insertionSort (· ≤ ·) := by
  have hmap := List.map_insertionSort (compareLe · ·) (· ≤ ·) id args
    fun a ha b hb => compareLe_iff (h a ha) (h b hb)
  rwa [List.map_id, List.map_id] at hmap

/-- **The exclusion form**: the list has the ranks that are not named, in ascending order, and as
many entries as there is room for; the order of the names does not matter. -/
theorem excluded_ranks {size : ℕ} (valid : ℤ) (raw : ℕ → ℤ) {args : List ℤ} (hsize : size < 2 ^ 31)
    (hnodup : args.Nodup) (hranks : ∀ r ∈ args, 0 ≤ r ∧ r < size) :
    ∃ ranks : List ℤ, ranks.Pairwise (· < ·) ∧
      (∀ r, r ∈ ranks ↔ (0 ≤ r ∧ r < size) ∧ r ∉ args) ∧ ranks.length + args.length = size ∧
      ∀ args', args'.Perm args →
        bcPlistCreateExcept size valid raw args' = some (some ⟨ranks, valid⟩) := by
  have hperm := List.perm_insertionSort (· ≤ ·) args
  have hsorted : RanksFrom size 0 (args.insertionSort (· ≤ ·)) := by
    refine ⟨?_, fun e he => hranks e (hperm.mem_iff.mp he)⟩
    exact ((List.pairwise_insertionSort (· ≤ ·) args).and (hperm.nodup_iff.mpr hnodup)).imp
      fun h => lt_of_le_of_ne h.1 h.2
  have hlength := length_otherValues hsorted
  rw [hperm.length_eq] at hlength
  refine ⟨otherValues size (args.insertionSort (· ≤ ·)) 0, pairwise_otherValues hsorted,
    fun r => ?_, by omega, fun args' hargs => ?_⟩
  · rw [mem_otherValues hsorted, hperm.mem_iff]
  · have hsort : args'.insertionSort (compareLe · ·) = args.insertionSort (· ≤ ·) := by
      rw [insertionSort_compareLe fun r hr => ?_]
      · exact List.Perm.eq_of_pairwise' (List.pairwise_insertionSort _ _)
          (List.pairwise_insertionSort _ _)
          (((List.perm_insertionSort _ _).trans hargs).trans hperm.symm)
      · have := hranks r (hargs.mem_iff.mp hr)
        omega
    have hroom : (size - args'.length : ℤ).toNat =
        (otherValues size (args.insertionSort (· ≤ ·)) 0).length := by
      rw [hargs.length_eq]
      omega
    rw [bcPlistCreateExcept, mallocInts, if_neg (by rw [hargs.length_eq]; omega), hroom, hsort]
    obtain ⟨s', j', hfill⟩ := @fillBetween_bind 0 size _ []
      ((List.range (otherValues size (args.insertionSort (· ≤ ·)) 0).length).map raw) hsorted
      (by rw [List.length_map, List.length_range])
    rw [List.drop_of_length_le (by rw [List.length_map, List.length_range]), List.append_nil,
      List.nil_append] at hfill
    obtain ⟨⟨s₁, j₁, plist⟩, hbetween, hup⟩ := Option.bind_eq_some_iff.mp hfill
    simp only [List.length_nil] at hbetween
    simp only [hbetween, hup, Option.bind_eq_bind, Option.bind_some, List.nil_append]

/-- All but two of five, named in either order. -/
theorem excluded_ranks_two : ∃ ranks : List ℤ, ranks.length = 3 ∧
    bcPlistCreateExcept 5 77 (fun _ => 0) [3, 1] = some (some ⟨ranks, 77⟩) ∧
    bcPlistCreateExcept 5 77 (fun _ => 0) [1, 3] = some (some ⟨ranks, 77⟩) := by
  obtain ⟨ranks, -, -, hlength, hcreate⟩ :=
    @excluded_ranks 5 77 (fun _ => 0) [3, 1] (by decide) (by decide) (by decide)
  exact ⟨ranks, Nat.add_right_cancel hlength, hcreate _ (.refl _), hcreate _ (.swap 3 1 [])⟩

example : bcPlistCreateExcept 5 77 (fun _ => 0) [3, 1] = some (some ⟨[0, 2, 4], 77⟩) := by decide

end Libdsys
