import Libdsys.Machinery.Loops
import Libdsys.Programs.Arrays
import Libdsys.Programs.Values
import Mathlib.Algebra.BigOperators.Group.Finset.Basic

/-!
# Programs/MatrixMul — the product of the examples

Every process has a block of rows of the first matrix and a block of columns of the second.  The
blocks of columns go round in a ring, until all rows have met all columns.

* `blocks_apply` — a round of the ring leaves a block of rows of the product.
* `multiply_ends` — all runs come round, and with the product of the rows and columns in blocks.
* `multiplies_iff` — the product is whole if and only if the processes divide both matrices.
-/

open Machinery

namespace Libdsys.MatrixMul

/-! ## The program -/

/-- `transpose`. -/
def transpose (r c : ℕ) (inp : ℕ → CInt) : ℕ → CInt :=
  let temp := forUp 0 r (fun i temp => forUp 0 c (fun j temp =>
    Function.update temp (j * r + i) (inp (i * c + j))) temp) fun _ => 0
  overwrite inp (cells (r * c) temp)

/-- `multiply_row_column`. -/
def multiplyRowColumn (row col : ℕ → CInt) (c : ℕ) : CInt :=
  forUp 0 c (fun i result => result + row i * col i) 0

section Program

variable (size : ℕ) (rank : ℤ)

/-- `multiply_blocks`. -/
def multiplyBlocks (result : ℕ → CInt) (nrblk ca : ℕ) (rows : ℕ → CInt) (ncblk cb : ℕ)
    (cols : ℕ → CInt) (n : ℕ) : ℕ → CInt :=
  let temp := (n + rank.toNat) % size * ncblk
  forUp 0 nrblk (fun i result => forUp 0 ncblk (fun j result =>
    Function.update result (temp + i * cb + j)
      (multiplyRowColumn (fun l => rows (i * ca + l)) (fun l => cols (j * ca + l)) ca)) result)
    result

/-- `src_rank`. -/
def srcRank : ℤ := if rank = size - 1 then 0 else rank + 1

/-- `sink_rank`. -/
def sinkRank : ℤ := if rank = 0 then size - 1 else rank - 1

variable (nra nca nrb ncb : ℕ)

/-- The channels of the ring. -/
def makes : List Make :=
  if There size rank then
    [.src [srcRank size rank] .int .pipe, .sink [sinkRank size rank] .int (ncb / size * nrb) .pipe]
  else []

/-- `rows`, which is filled from the first matrix. -/
def rows (a : ℕ → CInt) : ℕ → CInt :=
  overwrite (fun _ => 0) (cells (nra / size * nca) fun x => a (nra / size * nca * rank.toNat + x))

/-- `cols`, which is filled from the second one. -/
def cols (b : ℕ → CInt) : ℕ → CInt :=
  overwrite (fun _ => 0) (cells (ncb / size * nrb) fun x =>
    transpose nrb ncb b (ncb / size * nrb * rank.toNat + x))

/-- The loop of `multiply_matrices`: `left` turns are left, from turn `i` on. -/
def ring (rows : ℕ → CInt) : ℕ → ℕ → (ℕ → CInt) → (ℕ → CInt) → Task (ℕ → CInt)
  | 0, _, _, result => return result
  | left + 1, i, cols, result => do
    let cbSize := ncb / size * nrb
    Task.put 0 (intCodec.encodeAll (cells cbSize cols)) cbSize
    let bytes ← Task.get 0 (intCodec.encodeAll (cells cbSize cols)) cbSize
    let cols := overwrite cols (intCodec.decodeAll cbSize bytes)
    ring rows left (i + 1) cols
      (multiplyBlocks size rank result (nra / size) nca rows (ncb / size) ncb cols i)

/-- `multiply_matrices` up to the destruction of the ring: `result`. -/
def multiplyMatrices (a b : ℕ → CInt) : Task (ℕ → CInt) := do
  let rows := rows size rank nra nca a
  let cols := cols size rank nrb ncb b
  let result := multiplyBlocks size rank (fun _ => 0) (nra / size) nca rows (ncb / size) ncb cols 0
  ring size rank nra nca nrb ncb rows (size - 1) 1 cols result

/-- The rows of a block in `result`. -/
def blockRows (result : ℕ → CInt) : List (List CInt) :=
  cells (nra / size) fun i => cells ncb fun j => result (i * ncb + j)

/-- `main` up to there: what a process has of the product. -/
def main (a b : ℕ → CInt) : Task (Option (List (List CInt))) :=
  if There size rank then do
    let result ← multiplyMatrices size rank nra nca nrb ncb a b
    return some (blockRows size nra ncb result)
  else return none

end Program

/-! ## Rows and columns -/

section Entries

variable {r c : ℕ} {i j : ℕ}

theorem transpose_apply (inp : ℕ → CInt) (hi : i < r) (hj : j < c) :
    transpose r c inp (j * r + i) = inp (i * c + j) := by
  have hwrites : Writes {x | ∃ i < r, x ∈ {x | ∃ j < c, x ∈ ({j * r + i} : Set ℕ)}}
      (fun x => inp (x % r * c + x / r)) (forUp 0 r fun i => forUp 0 c fun j temp =>
        Function.update temp (j * r + i) (inp (i * c + j))) := by
    refine .forUp fun i hi => .forUp fun j _ => writes_update ?_
    obtain ⟨hdiv, hmod⟩ := grid_div_mod j hi
    rw [hdiv, hmod]
  have hlt : j * r + i < r * c := by
    have hle := Nat.mul_le_mul_right r (Nat.succ_le_of_lt hj)
    rw [Nat.succ_mul, Nat.mul_comm c] at hle
    omega
  obtain ⟨hdiv, hmod⟩ := grid_div_mod j hi
  rw [transpose, overwrite_cells_apply hlt]
  refine (hwrites.stored _ _ ⟨i, hi, j, hj, rfl⟩).trans ?_
  rw [hdiv, hmod]

/-- **The sum of the products**, as far as `int` has it. -/
theorem multiplyRowColumn_eq (row col : ℕ → CInt) (c : ℕ) : multiplyRowColumn row col c =
    CInt.ofInt (∑ l ∈ Finset.range c, (row l).val * (col l).val) := by
  refine forUp_induction (P := fun m (s : CInt) =>
    s = CInt.ofInt (∑ l ∈ Finset.range m, (row l).val * (col l).val)) (Nat.zero_le c)
    CInt.ofInt_zero.symm fun j s _ _ hs => ?_
  rw [hs, CInt.mul_eq_ofInt, CInt.ofInt_add_ofInt, Finset.sum_range_succ]

/-- An entry of the product. -/
def entry (n ncb : ℕ) (a b : ℕ → CInt) (i j : ℕ) : CInt :=
  CInt.ofInt (∑ l ∈ Finset.range n, (a (i * n + l)).val * (b (l * ncb + j)).val)

end Entries

section Blocks

variable {size nra n ncb : ℕ} {a b : ℕ → CInt}

/-- The columns that a process has are a block, and nothing is behind it. -/
theorem cols_of_le {rank : ℤ} {x : ℕ} (hx : ncb / size * n ≤ x) : cols size rank n ncb b x = 0 :=
  overwrite_of_le (by rwa [length_cells])

/-- The columns of another block take the place of those that were there. -/
theorem overwrite_cols (p q : ℤ) : overwrite (cols size p n ncb b)
    (cells (ncb / size * n) (cols size q n ncb b)) = cols size q n ncb b :=
  overwrite_cells fun _ hx => (cols_of_le hx).trans (cols_of_le hx).symm

/-- A column of a block is one of the matrix. -/
theorem column_lt {q j : ℕ} (hq : q < size) (hj : j < ncb / size) :
    q * (ncb / size) + j < ncb := by
  have hle := Nat.mul_le_mul_right (ncb / size) (Nat.succ_le_of_lt hq)
  have hdiv := Nat.mul_div_le ncb size
  rw [Nat.succ_mul] at hle
  omega

/-- **A row of a block and a column of another** make an entry. -/
theorem multiplyRowColumn_blocks {p q i j : ℕ} (hi : i < nra / size) (hq : q < size)
    (hj : j < ncb / size) :
    multiplyRowColumn (fun l => rows size p nra n a (i * n + l))
      (fun l => cols size q n ncb b (j * n + l)) n =
      entry n ncb a b (nra / size * p + i) (q * (ncb / size) + j) := by
  rw [multiplyRowColumn_eq, entry]
  refine congrArg CInt.ofInt (Finset.sum_congr rfl fun l hl => ?_)
  have hl := Finset.mem_range.mp hl
  have hwithin {i m : ℕ} (h : i < m) : i * n + l < m * n := by
    have hle := Nat.mul_le_mul_right n (Nat.succ_le_of_lt h)
    rw [Nat.succ_mul] at hle
    omega
  have hrow : rows size p nra n a (i * n + l) = a ((nra / size * p + i) * n + l) := by
    rw [rows, overwrite_cells_apply (hwithin hi), Int.toNat_natCast, Nat.add_mul, Nat.add_assoc,
      Nat.mul_right_comm]
  have hplace : ncb / size * n * q + (j * n + l) = (q * (ncb / size) + j) * n + l := by
    rw [Nat.add_mul, Nat.add_assoc, Nat.mul_right_comm, Nat.mul_comm q]
  rw [hrow, cols, overwrite_cells_apply (hwithin hj), Int.toNat_natCast, hplace,
    transpose_apply b hl (column_lt hq hj)]

variable (size nra n ncb a b) in
/-- **What `m` turns leave**: in each the columns are those of the next process. -/
def blocks (p m : ℕ) : ℕ → CInt :=
  forUp 0 m (fun i result => multiplyBlocks size p result (nra / size) n (rows size p nra n a)
    (ncb / size) ncb (cols size ((i + p) % size : ℕ) n ncb b) i) fun _ => 0

theorem blocks_succ (p m : ℕ) : blocks size nra n ncb a b p (m + 1) =
    multiplyBlocks size p (blocks size nra n ncb a b p m) (nra / size) n (rows size p nra n a)
      (ncb / size) ncb (cols size ((m + p) % size : ℕ) n ncb b) m :=
  forUp_succ (Nat.zero_le m) _ _

/-- The cells of `nrblk` rows, at the columns of block `q`. -/
def place (nrblk ncblk ncb q : ℕ) : Set ℕ :=
  {x | ∃ i < nrblk, x ∈ {x | ∃ j < ncblk, x ∈ ({q * ncblk + i * ncb + j} : Set ℕ)}}

theorem mem_place {q i k : ℕ} (hq : q < size) (hk : k < ncb) :
    i * ncb + k ∈ place (nra / size) (ncb / size) ncb q ↔
      i < nra / size ∧ ∃ j < ncb / size, k = q * (ncb / size) + j := by
  constructor
  · rintro ⟨i', hi', j, hj, heq⟩
    rw [Set.mem_singleton_iff, Nat.add_right_comm, Nat.add_comm (q * _ + j)] at heq
    obtain ⟨hdiv, hmod⟩ := grid_div_mod i hk
    obtain ⟨hdiv', hmod'⟩ := grid_div_mod i' (column_lt hq hj)
    rw [heq, hdiv'] at hdiv
    rw [heq, hmod'] at hmod
    exact ⟨hdiv ▸ hi', j, hj, hmod.symm⟩
  · rintro ⟨hi, j, hj, rfl⟩
    refine ⟨i, hi, j, hj, Set.mem_singleton_iff.mpr ?_⟩
    omega

/-- **A turn writes a block.** -/
theorem writes_multiplyBlocks (hsize : 0 < size) (p m : ℕ) :
    Writes (place (nra / size) (ncb / size) ncb ((m + p) % size))
      (fun x => entry n ncb a b (nra / size * p + x / ncb) (x % ncb))
      fun result => multiplyBlocks size p result (nra / size) n (rows size p nra n a) (ncb / size)
        ncb (cols size ((m + p) % size : ℕ) n ncb b) m := by
  have hq := Nat.mod_lt (m + p) hsize
  refine .forUp fun i hi => .forUp fun j hj => writes_update ?_
  have hplace : (m + p) % size * (ncb / size) + i * ncb + j =
      i * ncb + ((m + p) % size * (ncb / size) + j) := by omega
  obtain ⟨hdiv, hmod⟩ := grid_div_mod i (column_lt hq hj)
  rw [hplace, hdiv, hmod, multiplyRowColumn_blocks hi hq hj]

variable (nra n ncb a b) in
theorem writes_blocks (hsize : 0 < size) (p m : ℕ) :
    Writes {x | ∃ i < m, x ∈ place (nra / size) (ncb / size) ncb ((i + p) % size)}
      (fun x => entry n ncb a b (nra / size * p + x / ncb) (x % ncb))
      (forUp 0 m fun i result => multiplyBlocks size p result (nra / size) n (rows size p nra n a)
        (ncb / size) ncb (cols size ((i + p) % size : ℕ) n ncb b) i) :=
  .forUp fun i _ => writes_multiplyBlocks hsize p i

/-- Every block comes round. -/
theorem exists_turn {p q : ℕ} (hp : p < size) (hq : q < size) : ∃ i < size, (i + p) % size = q := by
  refine ⟨(q + (size - p)) % size, Nat.mod_lt _ (Nat.zero_lt_of_lt hp), ?_⟩
  have hround : q + (size - p) + p = q + size := by omega
  rw [Nat.mod_add_mod, hround, Nat.add_mod_right, Nat.mod_eq_of_lt hq]

/-- **A round of the ring leaves the rows of the product**, at the columns that are in blocks. -/
theorem blocks_apply {p i k : ℕ} (hp : p < size) (hk : k < ncb) :
    blocks size nra n ncb a b p size (i * ncb + k) =
      if i < nra / size ∧ k < ncb / size * size then entry n ncb a b (nra / size * p + i) k
      else 0 := by
  have hsize := Nat.zero_lt_of_lt hp
  have hwrites := writes_blocks nra n ncb a b hsize p size
  obtain ⟨hdiv, hmod⟩ := grid_div_mod i hk
  split
  · next h =>
    obtain ⟨hi, hlt⟩ := h
    have hpos : 0 < ncb / size := Nat.pos_of_ne_zero fun h => by simp [h] at hlt
    have hq : k / (ncb / size) < size :=
      Nat.div_lt_of_lt_mul hlt
    obtain ⟨m, hm, hturn⟩ := exists_turn hp hq
    have hmem : i * ncb + k ∈ place (nra / size) (ncb / size) ncb ((m + p) % size) := by
      rw [mem_place (hturn ▸ hq) hk, hturn]
      exact ⟨hi, _, Nat.mod_lt k hpos, (Nat.div_add_mod' k _).symm⟩
    refine (hwrites.stored _ _ ⟨m, hm, hmem⟩).trans ?_
    rw [hdiv, hmod]
  · next h =>
    refine hwrites.kept _ _ fun ⟨m, hm, hmem⟩ => h ?_
    have hq := Nat.mod_lt (m + p) hsize
    obtain ⟨hi, j, hj, rfl⟩ := (mem_place hq hk).mp hmem
    have hle := Nat.mul_le_mul_right (ncb / size) (Nat.succ_le_of_lt hq)
    rw [Nat.succ_mul, Nat.mul_comm size] at hle
    exact ⟨hi, by omega⟩

end Blocks

/-! ## The ring -/

section Ring

variable {size nra n ncb : ℕ} {a b : ℕ → CInt} {A : Arith} {R : Type} {rank : ℤ}

theorem there_srcRank (h : There size rank) :
    There size (srcRank size rank) ∧ sinkRank size (srcRank size rank) = rank := by
  obtain ⟨hle, hlt⟩ := h
  simp only [There, srcRank, sinkRank]
  split
  · next hlast => exact ⟨⟨by omega, by omega⟩, by rw [if_pos rfl]; exact hlast.symm⟩
  · next hlast => exact ⟨⟨by omega, by omega⟩, by rw [if_neg (by omega)]; omega⟩

theorem there_sinkRank (h : There size rank) :
    There size (sinkRank size rank) ∧ srcRank size (sinkRank size rank) = rank := by
  obtain ⟨hle, hlt⟩ := h
  simp only [There, srcRank, sinkRank]
  split
  · next hzero => exact ⟨⟨by omega, by omega⟩, by rw [if_pos rfl]; exact hzero.symm⟩
  · next hzero => exact ⟨⟨by omega, by omega⟩, by rw [if_neg (by omega)]; omega⟩

/-- The columns of the next process are those of the next turn. -/
theorem srcRank_turn (h : There size rank) (i : ℕ) :
    (i + (srcRank size rank).toNat) % size = (i + 1 + rank.toNat) % size := by
  obtain ⟨hle, hlt⟩ := h
  rw [srcRank]
  split
  · next hlast =>
    have hround : i + 1 + rank.toNat = i + size := by omega
    rw [hround, Nat.add_mod_right]
    rfl
  · next hlast =>
    have hnext : i + (rank + 1).toNat = i + 1 + rank.toNat := by omega
    rw [hnext]

/-- What the channels are. -/
def conf (size n ncb : ℕ) : Conf ℤ := wired fun rank => makes size rank n ncb

theorem makes_there (h : There size rank) (n ncb : ℕ) : makes size rank n ncb =
    [.src [srcRank size rank] .int .pipe,
      .sink [sinkRank size rank] .int (ncb / size * n) .pipe] := if_pos h

theorem good_makes (hsize : 2 ≤ size) (n ncb : ℕ) (rank : ℤ) :
    ∀ m ∈ makes size rank n ncb, m.Good rank := by
  intro m hm
  rw [makes] at hm
  split at hm
  · next hthere =>
    obtain ⟨hle, hlt⟩ := hthere
    simp only [List.mem_cons, List.not_mem_nil, or_false] at hm
    obtain rfl | rfl := hm
    · refine ⟨List.nodup_singleton _, ?_, by simp [Make.Copies]⟩
      simp only [Make.peers, srcRank, List.mem_singleton]
      split <;> omega
    · refine ⟨List.nodup_singleton _, ?_, by simp [Make.Copies]⟩
      simp only [Make.peers, sinkRank, List.mem_singleton]
      split <;> omega
  · cases hm

theorem dtype_makes (size n ncb : ℕ) (rank : ℤ) :
    ∀ m ∈ makes size rank n ncb, m.dtype = .int := by
  intro m hm
  rw [makes] at hm
  split at hm
  · simp only [List.mem_cons, List.not_mem_nil, or_false] at hm
    obtain rfl | rfl := hm <;> rfl
  · cases hm

/-- Matrices of which every process has rows and columns, and whose cells `int` can count. -/
structure Fits (size nra n ncb : ℕ) : Prop where
  rows : size ≤ nra
  cols : size ≤ ncb
  inner : 1 ≤ n
  first : nra * n < 2 ^ 31
  second : n * ncb < 2 ^ 31
  product : nra * ncb < 2 ^ 31

theorem Fits.counts_cols (h : Fits size nra n ncb) (hsize : 0 < size) :
    Counts .int (ncb / size * n) := by
  refine counts_of_lt (by decide) (Nat.mul_pos (Nat.div_pos h.cols hsize) h.inner) ?_
  refine (Nat.mul_le_mul_right n (Nat.div_le_self ncb size)).trans_lt ?_
  rw [Nat.mul_comm]
  exact h.second

/-- **A turn**: every process passes its columns on, and multiplies those it gets. -/
theorem reaches_turn (hsize : 2 ≤ size) (hfits : Fits size nra n ncb)
    {left i : ℕ} (k : ℤ → (ℕ → CInt) → Task R) (loc : ℤ → Task R)
    (hloc : ∀ p, There size p →
      loc p = (ring size p nra n n ncb (rows size p nra n a) (left + 1) (i + 1)
        (cols size ((i + p.toNat) % size : ℕ) n ncb b)
        (blocks size nra n ncb a b p.toNat (i + 1))).bind (k p)) :
    Reaches ((conf size n ncb).exchanges A fun _ => Task.program).step ⟨loc, fun _ => []⟩
      ⟨fun p => if There size p then
        (ring size p nra n n ncb (rows size p nra n a) left (i + 2)
          (cols size ((i + 1 + p.toNat) % size : ℕ) n ncb b)
          (blocks size nra n ncb a b p.toNat (i + 2))).bind (k p)
        else loc p, fun _ => []⟩ := by
  have hcounts := hfits.counts_cols (Nat.zero_lt_of_lt hsize)
  have hshift := reaches_shift (A := A) (C := intCodec) (good_makes hsize n ncb) hcounts
    (nodup_ranks size) hcounts le_rfl (sinkRank size) (srcRank size)
    (fun p hp => (there_sinkRank (mem_ranks.mp hp)).imp_left mem_ranks.mpr)
    (fun p hp => (there_srcRank (mem_ranks.mp hp)).imp_left mem_ranks.mpr) (fun _ => 0) (fun _ => 0)
    (fun p hp => by rw [makes_there (mem_ranks.mp hp)]; rfl)
    (fun p hp => by rw [makes_there (mem_ranks.mp hp)]; rfl)
    (fun p hp => rfl)
    (fun p => cells (ncb / size * n) (cols size ((i + p.toNat) % size : ℕ) n ncb b))
    (fun p => cells (ncb / size * n) (cols size ((i + p.toNat) % size : ℕ) n ncb b))
    (fun p _ => length_cells _ _) (fun p _ => length_cells _ _)
    (fun p xs => (ring size p nra n n ncb (rows size p nra n a) left (i + 2)
      (overwrite (cols size ((i + p.toNat) % size : ℕ) n ncb b) xs)
      (multiplyBlocks size p (blocks size nra n ncb a b p.toNat (i + 1)) (nra / size) n
        (rows size p nra n a) (ncb / size) ncb
        (overwrite (cols size ((i + p.toNat) % size : ℕ) n ncb b) xs) (i + 1))).bind (k p)) loc
    fun p hp => hloc p (mem_ranks.mp hp)
  rw [conf]
  convert hshift using 2
  funext p
  by_cases hp : There size p
  · have hnat : (p.toNat : ℤ) = p := Int.toNat_of_nonneg (by have := hp.1; omega)
    rw [if_pos hp, if_pos (mem_ranks.mpr hp), srcRank_turn hp, overwrite_cols, blocks_succ, hnat]
  · rw [if_neg hp, if_neg (mem_ranks.not.mpr hp)]

/-- **All turns of the ring.** -/
theorem reaches_ring (hsize : 2 ≤ size) (hfits : Fits size nra n ncb)
    (k : ℤ → (ℕ → CInt) → Task R) (left i : ℕ) (loc : ℤ → Task R)
    (hloc : ∀ p, There size p →
      loc p = (ring size p nra n n ncb (rows size p nra n a) left (i + 1)
        (cols size ((i + p.toNat) % size : ℕ) n ncb b)
        (blocks size nra n ncb a b p.toNat (i + 1))).bind (k p)) :
    Reaches ((conf size n ncb).exchanges A fun _ => Task.program).step ⟨loc, fun _ => []⟩
      ⟨fun p => if There size p then
        k p (blocks size nra n ncb a b p.toNat (i + 1 + left)) else loc p,
        fun _ => []⟩ := by
  induction left generalizing i loc with
  | zero =>
    have hsame : (fun p => if There size p then
        k p (blocks size nra n ncb a b p.toNat (i + 1 + 0)) else loc p) = loc := by
      funext p
      split
      · next hp => exact (hloc p hp).symm
      · rfl
    rw [hsame]
    exact .refl _
  | succ left ih =>
    have hrest := ih (i + 1) (fun p => if There size p then _ else loc p)
      fun p hp => if_pos hp
    refine (reaches_turn (A := A) hsize hfits k loc hloc).trans ?_
    convert hrest using 2
    funext p
    have hcount : i + 1 + 1 + left = i + 1 + (left + 1) := by omega
    rw [hcount]
    split <;> rfl

end Ring

/-! ## The product -/

section Product

variable {size nra n ncb : ℕ} {a b : ℕ → CInt}

variable (size n ncb a b) in
/-- **A row of the product**, at the columns that are in blocks. -/
def productRow (i : ℕ) : List CInt :=
  cells ncb fun j => if j < ncb / size * size then entry n ncb a b i j else 0

theorem blockRows_blocks {p : ℕ} (hp : p < size) :
    blockRows size nra ncb (blocks size nra n ncb a b p size) =
      cells (nra / size) fun i => productRow size n ncb a b (nra / size * p + i) := by
  refine List.map_congr_left fun i hi => List.map_congr_left fun j hj => ?_
  rw [blocks_apply hp (List.mem_range.mp hj),
    if_congr (and_iff_right (List.mem_range.mp hi)) rfl rfl]

/-- The first turn needs no exchange. -/
theorem blocks_one {rank : ℤ} (h : There size rank) :
    multiplyBlocks size rank (fun _ => 0) (nra / size) n (rows size rank nra n a) (ncb / size) ncb
      (cols size rank n ncb b) 0 = blocks size nra n ncb a b rank.toNat 1 := by
  obtain ⟨hle, hlt⟩ := h
  have hnat : (rank.toNat : ℤ) = rank := Int.toNat_of_nonneg (by omega)
  rw [blocks_succ, Nat.zero_add, Nat.mod_eq_of_lt (by omega), hnat]
  rfl

/-- **All runs of the multiplication come to the destruction of the ring**, and each process has its
rows of the product there. -/
theorem multiply_ends (A : Arith) (fresh : Fresh ℤ) (hsize : 2 ≤ size)
    (hfits : Fits size nra n ncb) (a b : ℕ → CInt) :
    (conf size n ncb).AllEnd A (fun _ => Task.program) fresh
      (fun rank => main size rank nra n n ncb a b) fun rank =>
        .done (if There size rank then
          some (cells (nra / size) fun i => productRow size n ncb a b (nra / size * rank.toNat + i))
          else none) := by
  have hgood := good_makes hsize n ncb
  have hring := reaches_ring (A := A) (a := a) (b := b) hsize hfits
    (fun _ result => .done (some (blockRows size nra ncb result))) (size - 1) 0
    (fun rank => main size rank nra n n ncb a b) fun p hp => by
      have hnat : (p.toNat : ℤ) = p := Int.toNat_of_nonneg (by have := hp.1; omega)
      have hlt : p.toNat < size := by
        obtain ⟨hle, hlt⟩ := hp
        omega
      rw [main, if_pos hp, Nat.zero_add, Nat.zero_add, Nat.mod_eq_of_lt hlt, hnat, ← blocks_one hp]
      rfl
  have hround : 0 + 1 + (size - 1) = size := by omega
  rw [hround] at hring
  have hreach : Reaches ((conf size n ncb).exchanges A fun _ => Task.program).step
      ⟨fun rank => main size rank nra n n ncb a b, fun _ => []⟩
      ⟨fun rank => .done (if There size rank then
        some (cells (nra / size) fun i => productRow size n ncb a b (nra / size * rank.toNat + i))
        else none), fun _ => []⟩ := by
    convert hring using 2
    funext p
    by_cases hp : There size p
    · have hlt : p.toNat < size := by
        obtain ⟨hle, hlt⟩ := hp
        omega
      rw [if_pos hp, if_pos hp, blockRows_blocks hlt]
    · rw [if_neg hp, if_neg hp, main, if_neg hp]
      rfl
  exact Conf.allEnd_of_exchanges fresh (ordered_wired hgood (typed_of_eq (dtype_makes size n ncb)))
    (oneToOne_wired hgood) (apart_wired hgood) hreach fun q => rfl

theorem multiply_ends_three : (conf 4 100 100).AllEnd noArith (fun _ => Task.program)
    ⟨fun _ _ _ _ => 0, fun _ _ _ => 0⟩
    (fun rank => main 4 rank 100 100 100 100 (fun x => CInt.ofInt x) fun x => CInt.ofInt (x % 7))
    fun rank => .done (if There 4 rank then
      some (cells (100 / 4) fun i => productRow 4 100 100 (fun x => CInt.ofInt x)
        (fun x => CInt.ofInt (x % 7)) (100 / 4 * rank.toNat + i)) else none) :=
  multiply_ends noArith ⟨fun _ _ _ _ => 0, fun _ _ _ => 0⟩ (by decide)
    ⟨by decide, by decide, by decide, by decide, by decide, by decide⟩ (fun x => CInt.ofInt x)
    fun x => CInt.ofInt (x % 7)

/-- The whole product. -/
def wholeProduct (nra n ncb : ℕ) (a b : ℕ → CInt) : List (List CInt) :=
  cells nra fun i => cells ncb (entry n ncb a b i)

/-- The program multiplies: all its runs come to the destruction of the ring, and the rows of the
processes are those of the whole product there. -/
def Multiplies (A : Arith) (fresh : Fresh ℤ) (size nra n ncb : ℕ) (a b : ℕ → CInt) : Prop :=
  ∃ out : ℤ → Option (List (List CInt)),
    (conf size n ncb).AllEnd A (fun _ => Task.program) fresh
      (fun rank => main size rank nra n n ncb a b) (fun rank => .done (out rank)) ∧
    ((List.range size).flatMap fun p : ℕ => (out p).getD []) = wholeProduct nra n ncb a b

/-- The rows of all processes. -/
theorem multiplies_iff_rows (A : Arith) (fresh : Fresh ℤ) (hsize : 2 ≤ size)
    (hfits : Fits size nra n ncb) (a b : ℕ → CInt) : Multiplies A fresh size nra n ncb a b ↔
      cells (size * (nra / size)) (productRow size n ncb a b) = wholeProduct nra n ncb a b := by
  have hall := multiply_ends A fresh hsize hfits a b
  have hrows : ((List.range size).flatMap fun p : ℕ => (if There size p then
      some (cells (nra / size) fun i =>
        productRow size n ncb a b (nra / size * (p : ℤ).toNat + i)) else none).getD []) =
      cells (size * (nra / size)) (productRow size n ncb a b) := by
    have hblock : ∀ p ∈ List.range size, (if There size p then
        some (cells (nra / size) fun i =>
          productRow size n ncb a b (nra / size * (p : ℤ).toNat + i)) else none).getD [] =
        cells (nra / size) fun i => productRow size n ncb a b (nra / size * p + i) := by
      intro p hp
      have hp := List.mem_range.mp hp
      rw [if_pos ⟨by omega, by omega⟩, Option.getD_some, Int.toNat_natCast]
    rw [List.flatMap_congr hblock, flatMap_cells size (nra / size) fun p i =>
      productRow size n ncb a b (nra / size * p + i)]
    simp only [Nat.div_add_mod]
  constructor
  · rintro ⟨out, hend, hout⟩
    have heq (p : ℤ) := Task.done.inj (congrFun (hend.unique hall) p)
    simp only [heq, hrows] at hout
    exact hout
  · intro hproduct
    exact ⟨_, hall, hrows.trans hproduct⟩

/-- Of ones the product has the number of columns of the first matrix everywhere. -/
theorem entry_one_ne_zero (hpos : 1 ≤ n) (hn : n < 2 ^ 31) (i j : ℕ) :
    entry n ncb (fun _ => CInt.ofInt 1) (fun _ => CInt.ofInt 1) i j ≠ 0 := by
  have hone : (CInt.ofInt 1).val = 1 := by decide
  have hentry : entry n ncb (fun _ => CInt.ofInt 1) (fun _ => CInt.ofInt 1) i j = CInt.ofInt n := by
    rw [entry]
    simp only [hone, mul_one, Finset.sum_const, Finset.card_range, nsmul_eq_mul]
  intro hzero
  have hval := congrArg CInt.val (hentry.symm.trans hzero)
  have hmod := CInt.ofInt_emod n
  rw [hval] at hmod
  change 0 % 2 ^ 32 = (n : ℤ) % 2 ^ 32 at hmod
  omega

/-- **The product is whole, whatever the matrices are, if and only if the processes divide the rows
of the first and the columns of the second.** -/
theorem multiplies_iff (A : Arith) (fresh : Fresh ℤ) (hsize : 2 ≤ size)
    (hfits : Fits size nra n ncb) :
    (∀ a b, Multiplies A fresh size nra n ncb a b) ↔ size ∣ nra ∧ size ∣ ncb := by
  constructor
  · intro hall
    have hrows := (multiplies_iff_rows A fresh hsize hfits _ _).mp
      (hall (fun _ => CInt.ofInt 1) fun _ => CInt.ofInt 1)
    have hlength := congrArg List.length hrows
    rw [length_cells, wholeProduct, length_cells] at hlength
    refine ⟨⟨_, hlength.symm⟩, ?_⟩
    by_contra hdvd
    -- a column that is over, in the first row
    have hover : ncb / size * size < ncb :=
      lt_of_le_of_ne (Nat.div_mul_le_self _ _) fun h => hdvd ⟨_, h.symm.trans (Nat.mul_comm _ _)⟩
    have hfirst : 0 < nra := (Nat.zero_lt_of_lt hsize).trans_le hfits.rows
    rw [hlength, wholeProduct] at hrows
    have hrow := List.map_inj_left.mp hrows 0 (List.mem_range.mpr hfirst)
    have hcell := List.map_inj_left.mp hrow _ (List.mem_range.mpr hover)
    rw [if_neg (lt_irrefl _)] at hcell
    have hn : n < 2 ^ 31 := (Nat.le_mul_of_pos_right n
      ((Nat.zero_lt_of_lt hsize).trans_le hfits.cols)).trans_lt hfits.second
    exact entry_one_ne_zero hfits.inner hn _ _ hcell.symm
  · rintro ⟨hrows, hcols⟩ a b
    refine (multiplies_iff_rows A fresh hsize hfits a b).mpr ?_
    rw [Nat.mul_div_cancel' hrows, wholeProduct]
    refine List.map_congr_left fun i _ => List.map_congr_left fun j hj => if_pos ?_
    rw [Nat.div_mul_cancel hcols]
    exact List.mem_range.mp hj

theorem multiplies_iff_two :
    ¬ ∀ a b, Multiplies noArith ⟨fun _ _ _ _ => 0, fun _ _ _ => 0⟩ 3 100 100 100 a b :=
  fun h => absurd ((multiplies_iff noArith ⟨fun _ _ _ _ => 0, fun _ _ _ => 0⟩ (by decide)
    ⟨by decide, by decide, by decide, by decide, by decide, by decide⟩).mp h).1 (by decide)

end Product

end Libdsys.MatrixMul
