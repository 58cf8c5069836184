import Libdsys.Machinery.Loops
import Libdsys.Programs.Arrays
import Libdsys.Programs.Values

/-!
# Programs/Gauss — Gaussian elimination, a row a process

The examples eliminate the same matrix in one process, and along a pipeline, in which every process
passes on the rows it receives.  The arithmetic is a parameter: floating point rounds, and nothing
is rearranged.

* `gaussianSeq_row` — what a row is reduced by.
-/

open Machinery

namespace Libdsys.Gauss

variable {F : Type}

/-- The arithmetic of `float`. -/
structure FloatArith (F : Type) where
  sub : F → F → F
  mul : F → F → F
  div : F → F → F
  zero : F
  one : F

/-- That of `int`, which may stand for it: what does not fit is cut off. -/
def intArith : FloatArith CInt where
  sub x y := CInt.ofInt (x.val - y.val)
  mul x y := CInt.ofInt (x.val * y.val)
  div x y := CInt.ofInt (x.val.tdiv y.val)
  zero := 0
  one := CInt.ofInt 1

/-- `A`: a row holds the coefficients, the constant and, in the last column, the result. -/
abbrev Matrix (F : Type) := ℕ → ℕ → F

/-! ## The sequential program -/

/-- `A[i][j] = v`. -/
def assign (A : Matrix F) (i j : ℕ) (v : F) : Matrix F :=
  Function.update A i (Function.update (A i) j v)

section Source

variable (O : FloatArith F) (dim : ℕ)

/-- Divide row `i`. -/
def divide (i : ℕ) (A : Matrix F) : Matrix F :=
  let A := forUp (i + 1) dim (fun j A => assign A i j (O.div (A i j) (A i i))) A
  let A := assign A i (dim + 1) (O.div (A i dim) (A i i))
  assign A i i O.one

/-- Eliminate row `i` from row `k`. -/
def eliminate (i k : ℕ) (A : Matrix F) : Matrix F :=
  let A := forUp (i + 1) dim (fun j A =>
    assign A k j (O.sub (A k j) (O.mul (A k i) (A i j)))) A
  let A := assign A k dim (O.sub (A k dim) (O.mul (A k i) (A i (dim + 1))))
  assign A k i O.zero

/-- What `gaussian_seq` does with row `i`. -/
def seqStep (i : ℕ) (A : Matrix F) : Matrix F :=
  forUp (i + 1) dim (fun k A => eliminate O dim i k A) (divide O dim i A)

/-- `gaussian_seq`. -/
def gaussianSeq (A : Matrix F) : Matrix F := forUp 0 dim (fun i A => seqStep O dim i A) A

end Source

/-! ## Rows -/

/-- A loop that changes row `k` only, as it is and with another row. -/
theorem forUp_row {i k : ℕ} (hik : i ≠ k) (lo hi : ℕ) (f : ℕ → (ℕ → F) → (ℕ → F) → F)
    (A : Matrix F) : forUp lo hi (fun j A => assign A k j (f j (A k) (A i))) A =
      Function.update A k
        (forUp lo hi (fun j row => Function.update row j (f j row (A i))) (A k)) := by
  obtain h | h := Nat.le_total hi lo
  · rw [forUp_of_le h, forUp_of_le h, Function.update_eq_self]
  · induction hi, h using Nat.le_induction with
    | base => rw [forUp_of_le le_rfl, forUp_of_le le_rfl, Function.update_eq_self]
    | succ hi hle ih =>
      rw [forUp_succ hle, forUp_succ hle, ih, assign, Function.update_self,
        Function.update_of_ne hik, Function.update_idem]

section Rows

variable (O : FloatArith F) (dim : ℕ)

/-- Row `i`, divided. -/
def divideRow (i : ℕ) (row : ℕ → F) : ℕ → F :=
  let row := forUp (i + 1) dim (fun j row => Function.update row j (O.div (row j) (row i))) row
  let row := Function.update row (dim + 1) (O.div (row dim) (row i))
  Function.update row i O.one

/-- A row, with row `i` eliminated from it. -/
def eliminateRow (i : ℕ) (pivot row : ℕ → F) : ℕ → F :=
  let row := forUp (i + 1) dim (fun j row =>
    Function.update row j (O.sub (row j) (O.mul (row i) (pivot j)))) row
  let row := Function.update row dim (O.sub (row dim) (O.mul (row i) (pivot (dim + 1))))
  Function.update row i O.zero

variable {O dim} {i k : ℕ}

theorem divide_eq (i : ℕ) (A : Matrix F) :
    divide O dim i A = Function.update A i (divideRow O dim i (A i)) := by
  have hloop := forUp_row (Nat.succ_ne_self i) (i + 1) dim
    (fun j row _ => O.div (row j) (row i)) A
  rw [divide, hloop, divideRow]
  simp only [assign, Function.update_self, Function.update_idem]

theorem eliminate_eq (hik : i ≠ k) (A : Matrix F) :
    eliminate O dim i k A = Function.update A k (eliminateRow O dim i (A i) (A k)) := by
  have hloop := forUp_row hik (i + 1) dim
    (fun j row pivot => O.sub (row j) (O.mul (row i) (pivot j))) A
  rw [eliminate, hloop, eliminateRow]
  simp only [assign, Function.update_self, Function.update_of_ne hik, Function.update_idem]

/-- A loop that changes every cell once, and uses one it does not change. -/
theorem forUp_update {lo hi : ℕ} (hle : lo ≤ hi) (hi' : i < lo) (f : ℕ → F → F → F) (row : ℕ → F)
    (j : ℕ) : forUp lo hi (fun j row => Function.update row j (f j (row j) (row i))) row j =
      if lo ≤ j ∧ j < hi then f j (row j) (row i) else row j := by
  have hloop : ∀ j, forUp lo hi (fun j row => Function.update row j (f j (row j) (row i))) row j =
      if lo ≤ j ∧ j < hi then f j (row j) (row i) else row j := by
    refine forUp_induction (P := fun n (row' : ℕ → F) => ∀ j, row' j =
      if lo ≤ j ∧ j < n then f j (row j) (row i) else row j) hle
      (fun j => (if_neg (by omega)).symm) fun n row' hlo _ hrow j => ?_
    by_cases hj : j = n
    · subst hj
      rw [Function.update_self, hrow j, hrow i, if_neg (by omega), if_neg (by omega),
        if_pos (by omega)]
    · have hiff : (lo ≤ j ∧ j < n + 1) ↔ (lo ≤ j ∧ j < n) := by omega
      rw [Function.update_of_ne hj, hrow j]
      simp only [hiff]
  exact hloop j

/-- **The cells of a divided row.** -/
theorem divideRow_apply (hi : i < dim) (row : ℕ → F) (j : ℕ) : divideRow O dim i row j =
    if j = i then O.one
    else if j = dim + 1 then O.div (row dim) (row i)
    else if i + 1 ≤ j ∧ j < dim then O.div (row j) (row i) else row j := by
  have hloop := forUp_update hi (Nat.lt_succ_self i) (fun _ x y => O.div x y) row
  simp only [divideRow, Function.update_apply, hloop]
  have hi' : ¬ (i + 1 ≤ i ∧ i < dim) := by omega
  have hdim : ¬ (i + 1 ≤ dim ∧ dim < dim) := by omega
  simp only [hi', hdim, if_false]

/-- **The cells of a row, with another eliminated from it.** -/
theorem eliminateRow_apply (hi : i < dim) (pivot row : ℕ → F) (j : ℕ) :
    eliminateRow O dim i pivot row j =
      if j = i then O.zero
      else if j = dim then O.sub (row dim) (O.mul (row i) (pivot (dim + 1)))
      else if i + 1 ≤ j ∧ j < dim then O.sub (row j) (O.mul (row i) (pivot j)) else row j := by
  have hloop := forUp_update hi (Nat.lt_succ_self i)
    (fun j x y => O.sub x (O.mul y (pivot j))) row
  simp only [eliminateRow, Function.update_apply, hloop]
  have hi' : ¬ (i + 1 ≤ i ∧ i < dim) := by omega
  have hdim : ¬ (i + 1 ≤ dim ∧ dim < dim) := by omega
  simp only [hi', hdim, if_false]

/-- Beyond the last column nothing changes. -/
theorem divideRow_of_le (hi : i < dim) (row : ℕ → F) {j : ℕ} (hj : dim + 2 ≤ j) :
    divideRow O dim i row j = row j := by
  rw [divideRow_apply hi, if_neg (by omega), if_neg (by omega), if_neg (by omega)]

theorem eliminateRow_of_le (hi : i < dim) (pivot row : ℕ → F) {j : ℕ} (hj : dim + 2 ≤ j) :
    eliminateRow O dim i pivot row j = row j := by
  rw [eliminateRow_apply hi, if_neg (by omega), if_neg (by omega), if_neg (by omega)]

/-! ## What the sequential program leaves -/

variable (O dim) in
/-- The matrix after `n` rows. -/
def seqTo (n : ℕ) (A : Matrix F) : Matrix F := forUp 0 n (fun i A => seqStep O dim i A) A

theorem seqTo_succ (n : ℕ) (A : Matrix F) :
    seqTo O dim (n + 1) A = seqStep O dim n (seqTo O dim n A) := forUp_succ (Nat.zero_le n) _ _

/-- **A step divides its row and eliminates it from those behind.** -/
theorem seqStep_row (hi : i < dim) (A : Matrix F) (k : ℕ) : seqStep O dim i A k =
    if k = i then divideRow O dim i (A i)
    else if i < k ∧ k < dim then eliminateRow O dim i (divideRow O dim i (A i)) (A k)
    else A k := by
  have hloop : ∀ k, forUp (i + 1) dim (fun k A => eliminate O dim i k A) (divide O dim i A) k =
      if k = i then divideRow O dim i (A i)
      else if i < k ∧ k < dim then eliminateRow O dim i (divideRow O dim i (A i)) (A k)
      else A k := by
    refine forUp_induction (P := fun n (B : Matrix F) => ∀ k, B k =
      if k = i then divideRow O dim i (A i)
      else if i < k ∧ k < n then eliminateRow O dim i (divideRow O dim i (A i)) (A k) else A k) hi
      (fun k => ?_) fun n B hlo hn hB k => ?_
    · rw [divide_eq]
      by_cases hk : k = i
      · rw [hk, Function.update_self, if_pos rfl]
      · rw [Function.update_of_ne hk, if_neg hk, if_neg (by omega)]
    · rw [eliminate_eq (by omega)]
      by_cases hk : k = n
      · subst hk
        rw [Function.update_self, hB i, hB k, if_pos rfl, if_neg (by omega), if_neg (by omega),
          if_neg (by omega), if_pos (by omega)]
      · rw [Function.update_of_ne hk, hB k]
        have hiff : (i < k ∧ k < n + 1) ↔ (i < k ∧ k < n) := by omega
        simp only [hiff]
  exact hloop k

/-- A row that has been divided stays as it is. -/
theorem seqTo_of_lt {r n : ℕ} (hr : r < n) (hn : n ≤ dim) (A : Matrix F) :
    seqTo O dim n A r = seqTo O dim (r + 1) A r := by
  induction n, hr using Nat.le_induction with
  | base => rfl
  | succ n hle ih =>
    have hr : r < n := hle
    rw [seqTo_succ, seqStep_row (by omega), if_neg (by omega), if_neg (by omega), ih (by omega)]

/-- **Row `r` is reduced by the rows before it**, and divided. -/
theorem gaussianSeq_row {r : ℕ} (hr : r < dim) (A : Matrix F) :
    gaussianSeq O dim A r = divideRow O dim r (seqTo O dim r A r) := by
  have hrow := seqTo_of_lt (O := O) hr le_rfl A
  rw [seqTo_succ, seqStep_row hr, if_pos rfl] at hrow
  exact hrow

/-- What a step does to a row behind. -/
theorem seqTo_succ_row {i r : ℕ} (hi : i < r) (hr : r < dim) (A : Matrix F) :
    seqTo O dim (i + 1) A r =
      eliminateRow O dim i (gaussianSeq O dim A i) (seqTo O dim i A r) := by
  rw [seqTo_succ, seqStep_row (by omega), if_neg (by omega), if_pos ⟨hi, hr⟩,
    gaussianSeq_row (by omega)]

theorem seqTo_of_le {n : ℕ} (hn : n ≤ dim) (A : Matrix F) {j : ℕ} (hj : dim + 2 ≤ j) (r : ℕ) :
    seqTo O dim n A r j = A r j := by
  induction n generalizing r with
  | zero => rw [seqTo, forUp_of_le le_rfl]
  | succ n ih =>
    rw [seqTo_succ, seqStep_row (by omega)]
    split
    · next h => rw [divideRow_of_le (by omega) _ hj, ih (by omega), h]
    · split
      · rw [eliminateRow_of_le (by omega) _ _ hj, ih (by omega)]
      · exact ih (by omega) r

end Rows

/-! ## Rows that are sent -/

section Cells

variable (dim : ℕ)

variable (C : Codec F Byte 4)

/-- `bc_get(src, &A[i][0], y+1)`. -/
def getRow (i : ℕ) (A : Matrix F) : Task (Matrix F) := do
  let bytes ← Task.get 0 (C.encodeAll (cells (dim + 2) (A i))) (dim + 2 : ℕ)
  return Function.update A i (overwrite (A i) (C.decodeAll (dim + 2) bytes))

/-- `if (bc_rank != last) bc_put(sink, &A[i][0], y+1)`. -/
def putRow (size rank i : ℕ) (A : Matrix F) : Task Unit :=
  if rank ≠ size - 1 then
    Task.put 0 (C.encodeAll (cells (dim + 2) (A i))) (dim + 2 : ℕ)
  else return ()

variable {dim C}

variable {A : Arith} {makes : ℤ → List Make} {R : Type} {p : ℤ}

/-- **One process sends a row** through a pipe, and the process at its end stores it. -/
theorem reaches_row (hdim : dim + 2 < 2 ^ 31) (hgood : ∀ p, ∀ m ∈ makes p, m.Good p)
    {q : ℤ} (hch : ((makes p).filterMap Make.sinkChan)[0]? = some ⟨.pipe, [q], .float, dim + 2⟩)
    (hsrc : ((makes q).filterMap Make.srcOf)[0]? = some ([p], .float, .pipe)) (row rows : Matrix F)
    (next : Matrix F → Task R) {loc : ℤ → Task R} {i : ℕ} {mid : Task R}
    (hput : loc p =
      (Task.put 0 (C.encodeAll (cells (dim + 2) (row i))) (dim + 2 : ℕ)).bind fun _ => mid)
    (hget : loc q = (getRow dim C i rows).bind next) :
    Reaches ((wired makes).exchanges A fun _ => Task.program).step ⟨loc, fun _ => []⟩
      ⟨fun r => if r = q then
          next (Function.update rows i (overwrite (rows i) (cells (dim + 2) (row i))))
        else if r = p then mid else loc r, fun _ => []⟩ := by
  have hcounts : Counts .float (dim + 2) := counts_of_lt (by decide) (by omega) hdim
  have hxs : SinkChan.Takes ⟨.pipe, [q], .float, dim + 2⟩ .float (dim + 2)
      (cells (dim + 2) (row i)) := by
    refine ⟨rfl, hcounts, le_rfl, ?_⟩
    rw [if_neg Role.noConfusion, length_cells, Nat.one_mul]
  have hcast := reaches_cast (A := A) (C := C) hgood hcounts hch (fun _ => rfl) hxs (fun _ => 0)
    (fun r hr => by
      obtain rfl := List.mem_singleton.mp hr
      exact ⟨hsrc, rfl⟩)
    (fun _ => cells (dim + 2) (rows i)) (fun _ _ => length_cells _ _) mid
    (fun _ xs => next (Function.update rows i (overwrite (rows i) xs))) loc hput
    fun r hr => by
      obtain rfl := List.mem_singleton.mp hr
      exact hget
  have hpiece (r : ℤ) : SinkChan.piece ⟨.pipe, [q], .float, dim + 2⟩ (dim + 2)
      (cells (dim + 2) (row i)) r = cells (dim + 2) (row i) :=
    List.take_of_length_le (length_cells (dim + 2) (row i)).le
  simpa only [hpiece, List.mem_singleton] using hcast

end Cells

/-! ## The parallel programs -/

section Parallel

variable (O : FloatArith F) (C : Codec F Byte 4) (size dim rank : ℕ)

/-- The pipes from the process before and to the process behind. -/
def makes (rank : ℤ) : List Make :=
  if size = dim ∧ There size rank then
    (if rank ≠ 0 then [.src [rank - 1] .float .pipe] else []) ++
    (if rank ≠ size - 1 then [.sink [rank + 1] .float (dim + 2) .pipe] else [])
  else []

/-- The loop over the rows before: `left` are still to come, from row `i` on. -/
def eliminateAll : ℕ → ℕ → Matrix F → Task (Matrix F)
  | 0, _, A => return A
  | left + 1, i, A => do
    let A ← getRow dim C i A
    let A := eliminate O dim i rank A
    putRow dim C size rank i A
    eliminateAll left (i + 1) A

/-- `gaussian_par_mcpy` of `gauss_pipeline`, between the creation of the channels and their
destruction. -/
def gaussianPar (A : Matrix F) : Task (Matrix F) := do
  let A ← eliminateAll O C size dim rank rank 0 A
  let A := divide O dim rank A
  putRow dim C size rank rank A
  return A

/-- What a process has of its row: the coefficients of `U`, and the entry of `y`. -/
def held (row : ℕ → F) : List F := (List.range dim).map row ++ [row (dim + 1)]

/-- `main` up to the destruction of the channels in `gaussian_par_mcpy`: what a process has of its
row there.  As many processes are required as there are rows. -/
def main (A : Matrix F) (rank : ℤ) : Task (Option (List F)) :=
  if size = dim ∧ There size rank then
    (gaussianPar O C size dim rank.toNat A).bind fun A => return some (held dim (A rank.toNat))
  else return none

end Parallel

/-! ## What a process has -/

section After

variable (O : FloatArith F) (dim : ℕ)

/-- The matrix of process `p` after `i` rows: the rows that came, and its own. -/
def after (A : Matrix F) (p i : ℕ) : Matrix F := fun r =>
  if r < i ∧ r ≤ p then gaussianSeq O dim A r
  else if r = p then seqTo O dim i A p else A r

variable {O dim} {C : Codec F Byte 4} {A : Matrix F} {p i : ℕ}

theorem after_zero (A : Matrix F) (p : ℕ) : after O dim A p 0 = A := by
  funext r
  rw [after, if_neg (by omega)]
  split
  · next h => rw [h]; rfl
  · rfl

theorem after_row {r : ℕ} (hi : r < i) (hp : r ≤ p) :
    after O dim A p i r = gaussianSeq O dim A r := if_pos ⟨hi, hp⟩

/-- **A row that came is eliminated.** -/
theorem eliminate_after (hi : i < p) (hp : p < dim) : eliminate O dim i p
    (Function.update (after O dim A p i) i
      (overwrite (after O dim A p i i) (cells (dim + 2) (gaussianSeq O dim A i)))) =
    after O dim A p (i + 1) := by
  have hrow : overwrite (after O dim A p i i) (cells (dim + 2) (gaussianSeq O dim A i)) =
      gaussianSeq O dim A i := by
    refine overwrite_cells fun j hj => ?_
    rw [after, if_neg (by omega), if_neg (by omega)]
    exact seqTo_of_le le_rfl A hj i
  rw [hrow, eliminate_eq (by omega)]
  funext r
  by_cases hr : r = p
  · subst hr
    rw [Function.update_self, Function.update_self, Function.update_of_ne (by omega), after, after,
      if_neg (by omega), if_pos rfl, if_neg (by omega), if_pos rfl, seqTo_succ_row hi hp]
  · rw [Function.update_of_ne hr]
    by_cases hri : r = i
    · subst hri
      rw [Function.update_self, after_row (by omega) (by omega)]
    · rw [Function.update_of_ne hri, after, after, if_neg hr, if_neg hr]
      have hiff : (r < i ∧ r ≤ p) ↔ (r < i + 1 ∧ r ≤ p) := by omega
      simp only [hiff]

/-- **When all came**, the own row is divided. -/
theorem divide_after (hp : p < dim) :
    divide O dim p (after O dim A p p) = after O dim A p (p + 1) := by
  rw [divide_eq]
  funext r
  by_cases hr : r = p
  · subst hr
    have hown : after O dim A r r r = seqTo O dim r A r :=
      (if_neg fun h => absurd h.1 (lt_irrefl r)).trans (if_pos rfl)
    rw [Function.update_self, after_row (Nat.lt_succ_self r) le_rfl, gaussianSeq_row hp, hown]
  · rw [Function.update_of_ne hr, after, after, if_neg hr, if_neg hr]
    have hiff : (r < p ∧ r ≤ p) ↔ (r < p + 1 ∧ r ≤ p) := by omega
    simp only [hiff]

end After

/-- All processes of a program. -/
def everyone {R : Type} (size : ℕ) (st : ℕ → Task (Option R)) (rank : ℤ) : Task (Option R) :=
  if There size rank then st rank.toNat else .done none

theorem everyone_natCast {R : Type} {size : ℕ} (st : ℕ → Task (Option R)) {p : ℕ} (hp : p < size) :
    everyone size st p = st p := if_pos ⟨by omega, by omega⟩

section Waiting

variable {O : FloatArith F} {C : Codec F Byte 4} {dim : ℕ} {A : Matrix F} {i p : ℕ}

variable (O C dim) in
/-- A process that waits for row `i`, and one that is done. -/
def waiting (p i : ℕ) (B : Matrix F) : Task (Option (List F)) :=
  if p < i then .done (some (held dim (B p)))
  else (eliminateAll O C dim dim p (p - i) i B).bind fun B =>
    (putRow dim C dim p p (divide O dim p B)).bind fun _ =>
      .done (some (held dim (divide O dim p B p)))

/-- When all rows came, it sends its own. -/
theorem waiting_self (hp : p < dim) : waiting O C dim p p (after O dim A p p) =
    (putRow dim C dim p p (after O dim A p (p + 1))).bind fun _ =>
      waiting O C dim p (p + 1) (after O dim A p (p + 1)) := by
  rw [waiting, if_neg (lt_irrefl p), Nat.sub_self, eliminateAll, waiting,
    if_pos (Nat.lt_succ_self p), ← divide_after hp]
  rfl

/-- Then it is done. -/
theorem waiting_done (hp : p < i) : waiting O C dim p i (after O dim A p i) =
    .done (some (held dim (gaussianSeq O dim A p))) := by
  rw [waiting, if_pos hp, after_row hp le_rfl]

/-- At first all wait for the first row. -/
theorem main_eq_waiting : main O C dim dim A =
    everyone dim fun p => waiting O C dim p 0 (after O dim A p 0) := by
  funext q
  rw [main, everyone]
  by_cases hq : There dim q
  · rw [if_pos ⟨rfl, hq⟩, if_pos hq, after_zero, waiting, if_neg (Nat.not_lt_zero _), Nat.sub_zero,
      gaussianPar]
    refine (Task.bind_assoc ..).trans (congrArg _ (funext fun B => ?_))
    exact Task.bind_assoc ..
  · rw [if_neg fun h => hq h.2, if_neg hq]
    rfl

end Waiting

/-! ## The pipeline -/

section Pipeline

variable {O : FloatArith F} {C : Codec F Byte 4} {dim : ℕ} {A : Matrix F} {i h p : ℕ}

theorem mem_makes {size : ℕ} {rank : ℤ} {m : Make} (hm : m ∈ makes size dim rank) :
    m = .src [rank - 1] .float .pipe ∨ m = .sink [rank + 1] .float (dim + 2) .pipe := by
  rw [makes] at hm
  split at hm
  · obtain hm | hm := List.mem_append.mp hm
    · split at hm
      · exact .inl (List.mem_singleton.mp hm)
      · cases hm
    · split at hm
      · exact .inr (List.mem_singleton.mp hm)
      · cases hm
  · cases hm

theorem good_makes (size dim : ℕ) (rank : ℤ) : ∀ m ∈ makes size dim rank, m.Good rank := by
  intro m hm
  obtain rfl | rfl := mem_makes hm
  · exact ⟨List.nodup_singleton _, fun h => by simp [Make.peers] at h; omega, by simp [Make.Copies]⟩
  · exact ⟨List.nodup_singleton _, by simp [Make.peers], by simp [Make.Copies]⟩

theorem dtype_makes (size dim : ℕ) (rank : ℤ) :
    ∀ m ∈ makes size dim rank, m.dtype = .float := by
  intro m hm
  obtain rfl | rfl := mem_makes hm <;> rfl

theorem sink_makes (hh : h + 1 < dim) : ((makes dim dim h).filterMap Make.sinkChan)[0]? =
    some ⟨.pipe, [(h : ℤ) + 1], .float, dim + 2⟩ := by
  have hthere : There dim (h : ℤ) := ⟨by omega, by omega⟩
  have hlast : (h : ℤ) ≠ dim - 1 := by omega
  rw [makes, if_pos ⟨rfl, hthere⟩, if_pos hlast]
  split <;> rfl

theorem src_makes (hh : h + 1 < dim) : ((makes dim dim (h + 1 : ℕ)).filterMap Make.srcOf)[0]? =
    some ([(h : ℤ)], .float, .pipe) := by
  have hthere : There dim ((h + 1 : ℕ) : ℤ) := ⟨by omega, by omega⟩
  have hzero : (h : ℤ) + 1 ≠ 0 := by omega
  push_cast at hthere ⊢
  simp [makes, hthere, hzero, Make.srcOf]

section Run

variable (O C dim A)

/-- A process that holds row `i`. -/
def holding (p i : ℕ) : Task (Option (List F)) :=
  (putRow dim C dim p i (after O dim A p (i + 1))).bind fun _ =>
    waiting O C dim p (i + 1) (after O dim A p (i + 1))

/-- **Row `i` has come to process `h`.** -/
def state (i h p : ℕ) : Task (Option (List F)) :=
  if p < h then waiting O C dim p (i + 1) (after O dim A p (i + 1))
  else if p = h then holding O C dim A p i
  else waiting O C dim p i (after O dim A p i)

variable {O C dim A}

theorem waiting_of_lt (hi : i < p) (B : Matrix F) :
    waiting O C dim p i B =
      (getRow dim C i B).bind fun B => (putRow dim C dim p i (eliminate O dim i p B)).bind
        fun _ => waiting O C dim p (i + 1)
          (eliminate O dim i p B) := by
  have hleft : p - i = (p - (i + 1)) + 1 := by omega
  rw [waiting, if_neg (by omega), hleft, eliminateAll]
  refine (Task.bind_assoc ..).trans (congrArg _ (funext fun B => ?_))
  refine (Task.bind_assoc ..).trans (congrArg _ (funext fun _ => ?_))
  rw [waiting, if_neg (by omega)]

/-- **A row goes on to the next process.** -/
theorem reaches_hop {T : Arith} (hdim : dim + 2 < 2 ^ 31) (hi : i ≤ h) (hh : h + 1 < dim) :
    Reaches ((wired (makes dim dim)).exchanges T fun _ => Task.program).step
      ⟨everyone dim (state O C dim A i h), fun _ => []⟩
      ⟨everyone dim (state O C dim A i (h + 1)), fun _ => []⟩ := by
  have hput : everyone dim (state O C dim A i h) h =
      (Task.put 0 (C.encodeAll (cells (dim + 2) (after O dim A h (i + 1) i)))
        (dim + 2 : ℕ)).bind fun _ => waiting O C dim h (i + 1) (after O dim A h (i + 1)) := by
    rw [everyone_natCast _ (by omega), state, if_neg (by omega), if_pos rfl, holding, putRow,
      if_pos (by omega)]
  have hget : everyone dim (state O C dim A i h) (h + 1 : ℕ) =
      (getRow dim C i (after O dim A (h + 1) i)).bind fun B =>
        (putRow dim C dim (h + 1) i (eliminate O dim i (h + 1) B)).bind fun _ =>
          waiting O C dim (h + 1) (i + 1)
            (eliminate O dim i (h + 1) B) := by
    rw [everyone_natCast _ hh, state, if_neg (by omega), if_neg (by omega),
      waiting_of_lt (by omega)]
  have hrow := reaches_row (A := T) hdim (good_makes dim dim) (sink_makes hh) (src_makes hh)
    (after O dim A h (i + 1)) (after O dim A (h + 1) i)
    (fun B => (putRow dim C dim (h + 1) i (eliminate O dim i (h + 1) B)).bind fun _ => waiting O C
      dim (h + 1) (i + 1) (eliminate O dim i (h + 1) B))
    hput hget
  convert hrow using 2
  funext q
  rw [after_row (Nat.lt_succ_self i) hi, eliminate_after (by omega) hh]
  by_cases hq : There dim q
  · obtain ⟨p, rfl⟩ : ∃ p : ℕ, q = p := ⟨q.toNat, by have := hq.1; omega⟩
    have hp : p < dim := by have := hq.2; omega
    rw [everyone_natCast _ hp, everyone_natCast _ hp]
    obtain hlt | rfl | rfl | hgt : p < h ∨ p = h ∨ p = h + 1 ∨ h + 1 < p := by omega
    · rw [if_neg (by omega), if_neg (by omega), state, state, if_pos hlt, if_pos (by omega)]
    · rw [if_neg (by omega), if_pos rfl, state, if_pos (Nat.lt_succ_self p)]
    · rw [if_pos (Nat.cast_succ h), state, if_neg (lt_irrefl _), if_pos rfl, holding]
    · rw [if_neg (by omega), if_neg (by omega), state, state, if_neg (by omega),
        if_neg (by omega), if_neg (by omega), if_neg (by omega)]
  · have hne : q ≠ h := fun heq => hq ⟨by omega, by omega⟩
    have hne' : q ≠ h + 1 := fun heq => hq ⟨by omega, by omega⟩
    rw [if_neg hne', if_neg hne, everyone, everyone, if_neg hq,
      if_neg hq]

/-- **A row comes to all.** -/
theorem reaches_last {T : Arith} (hdim : dim + 2 < 2 ^ 31) (hi : i ≤ h) (hh : h < dim) :
    Reaches ((wired (makes dim dim)).exchanges T fun _ => Task.program).step
      ⟨everyone dim (state O C dim A i i), fun _ => []⟩
      ⟨everyone dim (state O C dim A i h), fun _ => []⟩ := by
  induction h, hi using Nat.le_induction with
  | base => exact .refl _
  | succ h hle ih => exact (ih (by omega)).trans (reaches_hop hdim hle hh)

/-- The last process keeps it. -/
theorem state_last_row (hp : p < dim) : state O C dim A i (dim - 1) p =
    waiting O C dim p (i + 1) (after O dim A p (i + 1)) := by
  rw [state]
  split
  · rfl
  · obtain rfl : p = dim - 1 := by omega
    have hlast (B : Matrix F) : putRow dim C dim (dim - 1) i B = .done () :=
      if_neg fun h => h rfl
    rw [if_pos rfl, holding, hlast]
    rfl

/-- The next row begins. -/
theorem state_last (hi : i + 1 < dim) (hp : p < dim) :
    state O C dim A i (dim - 1) p = state O C dim A (i + 1) (i + 1) p := by
  rw [state_last_row hp, state]
  split
  · next hpi => rw [waiting_done hpi, waiting_done (Nat.lt_succ_of_lt hpi)]
  · split
    · next heq => rw [heq, waiting_self hi, holding]
    · rfl

/-- After the last row all are done. -/
theorem state_end (hp : p < dim) : state O C dim A (dim - 1) (dim - 1) p =
    .done (some (held dim (gaussianSeq O dim A p))) := by
  rw [state_last_row hp, waiting_done (by omega)]

/-- **All rows come to all.** -/
theorem reaches_rows {T : Arith} (hdim : dim + 2 < 2 ^ 31) (hi : i < dim) :
    Reaches ((wired (makes dim dim)).exchanges T fun _ => Task.program).step
      ⟨everyone dim (state O C dim A 0 0), fun _ => []⟩
      ⟨everyone dim (state O C dim A i (dim - 1)), fun _ => []⟩ := by
  induction i with
  | zero => exact reaches_last hdim (Nat.zero_le _) (by omega)
  | succ i ih =>
    have hsame : everyone dim (state O C dim A i (dim - 1)) =
        everyone dim (state O C dim A (i + 1) (i + 1)) := by
      funext q
      rw [everyone, everyone]
      split
      · next hq => exact state_last hi (by have := hq.1; have := hq.2; omega)
      · rfl
    exact (hsame ▸ ih (by omega)).trans (reaches_last hdim (by omega) (by omega))

theorem main_eq : main O C dim dim A = everyone dim (state O C dim A 0 0) := by
  rw [main_eq_waiting]
  funext q
  rw [everyone, everyone]
  split
  · next hq =>
    rw [state, if_neg (Nat.not_lt_zero _)]
    split
    · next h =>
      rw [h, holding, ← waiting_self (by have := hq.1; have := hq.2; omega)]
    · rfl
  · rfl

end Run

end Pipeline

section Ends

variable {O : FloatArith F} {C : Codec F Byte 4} {size dim : ℕ} {A : Matrix F}

/-- **All runs of the pipeline come to the destruction of the channels**, each process with its row
of what the sequential program leaves. -/
theorem pipeline_ends (O : FloatArith F) (C : Codec F Byte 4) (T : Arith) (fresh : Fresh ℤ)
    (size : ℕ) (hdim : dim + 2 < 2 ^ 31) (A : Matrix F) :
    (wired (makes size dim)).AllEnd T (fun _ => Task.program) fresh (main O C size dim A)
      fun rank => .done (if size = dim ∧ There size rank then
        some (held dim (gaussianSeq O dim A rank.toNat)) else none) := by
  have hgood := good_makes size dim
  have hreach : Reaches ((wired (makes size dim)).exchanges T fun _ => Task.program).step
      ⟨main O C size dim A, fun _ => []⟩
      ⟨fun rank => .done (if size = dim ∧ There size rank then
        some (held dim (gaussianSeq O dim A rank.toNat)) else none), fun _ => []⟩ := by
    by_cases hsize : size = dim ∧ 0 < dim
    · obtain ⟨rfl, hpos⟩ := hsize
      rw [main_eq]
      convert reaches_rows (O := O) (C := C) (A := A) (T := T) hdim
        (Nat.sub_lt hpos Nat.one_pos) using 2
      funext rank
      rw [everyone]
      by_cases hrank : There size rank
      · have hlt : rank.toNat < size := by
          obtain ⟨hle, hlt⟩ := hrank
          omega
        rw [if_pos ⟨rfl, hrank⟩, if_pos hrank, state_end hlt]
      · rw [if_neg fun h => hrank h.2, if_neg hrank]
    · have hnone (rank : ℤ) : ¬ (size = dim ∧ There size rank) := fun h =>
        hsize ⟨h.1, by have := h.2.1; have := h.2.2; omega⟩
      have hsame : main O C size dim A = fun rank =>
          .done (if size = dim ∧ There size rank then
            some (held dim (gaussianSeq O dim A rank.toNat)) else none) := by
        funext rank
        rw [main, if_neg (hnone rank), if_neg (hnone rank)]
        rfl
      rw [hsame]
      exact .refl _
  exact Conf.allEnd_of_exchanges fresh
    (ordered_wired hgood (typed_of_eq (dtype_makes size dim))) (oneToOne_wired hgood)
    (apart_wired hgood) hreach fun q => rfl

theorem pipeline_ends_two : (wired (makes 2 2)).AllEnd noArith (fun _ => Task.program)
    ⟨fun _ _ _ _ => 0, fun _ _ _ => 0⟩
    (main intArith intCodec 2 2 fun r j => CInt.ofInt (r + j + 1))
    fun rank => .done (if 2 = 2 ∧ There 2 rank then
      some (held 2 (gaussianSeq intArith 2 (fun r j => CInt.ofInt (r + j + 1)) rank.toNat))
      else none) :=
  pipeline_ends intArith intCodec noArith ⟨fun _ _ _ _ => 0, fun _ _ _ => 0⟩ 2 (by decide) _

end Ends

end Libdsys.Gauss
