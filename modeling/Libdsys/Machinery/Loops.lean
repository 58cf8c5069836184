import Mathlib.Data.List.GetD
import Mathlib.Data.Set.Insert

/-!
# Machinery/Loops — loops that count, and memory

A loop over a range of numbers, and what loops leave in memory that store to a cell in every turn.
Memory is what is behind a pointer.

* `forUp_induction` — what every turn preserves.
* `Writes.forUp` — loops that store, also nested ones.
* `overwrite_cells` — cells that are copied.
-/

namespace Machinery

variable {σ α : Type*}

/-- `for (j = lo; j < hi; j++)`. -/
def forUp (lo hi : ℕ) (body : ℕ → σ → σ) (s : σ) : σ :=
  (List.range' lo (hi - lo)).foldl (fun s j => body j s) s

section Loop

variable {lo hi : ℕ} {body : ℕ → σ → σ} {s : σ}

theorem forUp_of_le (h : hi ≤ lo) (body : ℕ → σ → σ) (s : σ) : forUp lo hi body s = s := by
  rw [forUp, Nat.sub_eq_zero_of_le h]
  rfl

theorem forUp_succ (h : lo ≤ hi) (body : ℕ → σ → σ) (s : σ) :
    forUp lo (hi + 1) body s = body hi (forUp lo hi body s) := by
  rw [forUp, Nat.succ_sub h, List.range'_concat, List.foldl_append, forUp, Nat.one_mul,
    Nat.add_sub_cancel' h]
  rfl

/-- **What every turn of a loop preserves.** -/
theorem forUp_induction {P : ℕ → σ → Prop} (h : lo ≤ hi) (hstart : P lo s)
    (hstep : ∀ j s, lo ≤ j → j < hi → P j s → P (j + 1) (body j s)) :
    P hi (forUp lo hi body s) := by
  induction hi, h using Nat.le_induction with
  | base => rwa [forUp_of_le le_rfl]
  | succ hi hle ih =>
    rw [forUp_succ hle]
    exact hstep hi _ hle (Nat.lt_succ_self hi)
      (ih fun j s hlo hj => hstep j s hlo (Nat.lt_succ_of_lt hj))

end Loop

/-! ## Loops that store -/

/-- A cell of a grid has one row and one column. -/
theorem grid_div_mod {c j : ℕ} (i : ℕ) (hj : j < c) : (i * c + j) / c = i ∧ (i * c + j) % c = j := by
  have hpos : 0 < c := Nat.zero_lt_of_lt hj
  rw [Nat.mul_comm, Nat.mul_add_div hpos, Nat.mul_add_mod, Nat.div_eq_of_lt hj, Nat.mod_eq_of_lt hj]
  exact ⟨rfl, rfl⟩

/-- **Code that writes** to some cells what belongs in them, whatever is in memory, and to no
others. -/
structure Writes (S : Set ℕ) (v : ℕ → α) (f : (ℕ → α) → ℕ → α) : Prop where
  stored : ∀ mem, ∀ x ∈ S, f mem x = v x
  kept : ∀ mem, ∀ x ∉ S, f mem x = mem x

section Stores

variable {v : ℕ → α} {n : ℕ}

theorem writes_update {x : ℕ} {y : α} (h : v x = y) :
    Writes {x} v fun mem => Function.update mem x y where
  stored mem x' hx' := by
    obtain rfl := Set.mem_singleton_iff.mp hx'
    rw [Function.update_self, h]
  kept mem x' hx' := Function.update_of_ne (Set.mem_singleton_iff.not.mp hx') _ _

/-- **A loop writes** to the cells of all its turns. -/
theorem Writes.forUp {body : ℕ → (ℕ → α) → ℕ → α} {S : ℕ → Set ℕ}
    (h : ∀ i < n, Writes (S i) v (body i)) :
    Writes {x | ∃ i < n, x ∈ S i} v (forUp 0 n body) := by
  have hturns (mem : ℕ → α) :
      (∀ x, (∃ i < n, x ∈ S i) → Machinery.forUp 0 n body mem x = v x) ∧
      ∀ x, (¬ ∃ i < n, x ∈ S i) → Machinery.forUp 0 n body mem x = mem x := by
    refine forUp_induction (P := fun m (mem' : ℕ → α) => (∀ x, (∃ i < m, x ∈ S i) → mem' x = v x) ∧
      ∀ x, (¬ ∃ i < m, x ∈ S i) → mem' x = mem x) (Nat.zero_le n)
      ⟨fun x hx => ?_, fun x _ => rfl⟩ fun j mem' _ hj ih => ⟨fun x hx => ?_, fun x hx => ?_⟩
    · obtain ⟨i, hi, -⟩ := hx
      exact absurd hi (Nat.not_lt_zero i)
    · by_cases hlast : x ∈ S j
      · exact (h j hj).stored mem' x hlast
      · obtain ⟨i, hi, hx⟩ := hx
        obtain hlt | rfl := Nat.lt_succ_iff_lt_or_eq.mp hi
        · rw [(h j hj).kept mem' x hlast, ih.1 x ⟨i, hlt, hx⟩]
        · exact absurd hx hlast
    · have hlast : x ∉ S j := fun hx' => hx ⟨j, Nat.lt_succ_self j, hx'⟩
      rw [(h j hj).kept mem' x hlast,
        ih.2 x fun ⟨i, hi, hx'⟩ => hx ⟨i, Nat.lt_succ_of_lt hi, hx'⟩]
  exact ⟨fun mem => (hturns mem).1, fun mem => (hturns mem).2⟩

end Stores

/-! ## Copies -/

section Copies

/-- The first `n` cells. -/
def cells (n : ℕ) (mem : ℕ → α) : List α := (List.range n).map mem

/-- Memory that some cells are stored to, from its start on. -/
def overwrite (mem : ℕ → α) (xs : List α) (j : ℕ) : α := xs.getD j (mem j)

@[simp] theorem length_cells (n : ℕ) (mem : ℕ → α) : (cells n mem).length = n := by
  rw [cells, List.length_map, List.length_range]

variable {n : ℕ} {mem mem' : ℕ → α} {j : ℕ}

theorem overwrite_cells_apply (hj : j < n) : overwrite mem (cells n mem') j = mem' j := by
  simp [overwrite, cells, List.getD_eq_getElem?_getD, hj]

theorem overwrite_of_le {xs : List α} (hj : xs.length ≤ j) : overwrite mem xs j = mem j := by
  rw [overwrite, List.getD_eq_getElem?_getD, List.getElem?_eq_none hj, Option.getD_none]

/-- **A copy** is whole where nothing else differs. -/
theorem overwrite_cells (h : ∀ j, n ≤ j → mem' j = mem j) : overwrite mem (cells n mem') = mem' := by
  funext j
  obtain hj | hj := Nat.lt_or_ge j n
  · exact overwrite_cells_apply hj
  · rw [overwrite_of_le (by rwa [length_cells]), h j hj]

/-- Pieces of memory, one behind the other. -/
theorem flatMap_cells (n s : ℕ) (f : ℕ → ℕ → α) :
    ((List.range n).flatMap fun k => cells s (f k)) = cells (n * s) fun x => f (x / s) (x % s) := by
  induction n with
  | zero => rw [Nat.zero_mul]; rfl
  | succ n ih =>
    rw [List.range_succ, List.flatMap_append, ih, List.flatMap_singleton, Nat.succ_mul, cells, cells,
      cells, List.range_add, List.map_append, List.map_map]
    refine congrArg _ (List.map_congr_left fun j hj => ?_)
    obtain ⟨hdiv, hmod⟩ := grid_div_mod n (List.mem_range.mp hj)
    rw [Function.comp_apply, hdiv, hmod]

end Copies

end Machinery
