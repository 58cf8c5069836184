import Libdsys.Programs.Gauss
import Mathlib.Algebra.BigOperators.Field
import Mathlib.Algebra.Field.Basic
import Mathlib.Algebra.Field.Rat
import Mathlib.Tactic.NormNum
import Mathlib.Tactic.Ring

/-!
# Programs/Elimination — what the elimination is for

Over a field, `gaussian_seq` turns equations into equations with the same solutions.  In what it
leaves every row has a one on the diagonal and zeros before it.

* `seqStep_solves` — a row that has a pivot keeps the solutions.
* `gaussianSeq_solves` — so do all rows.
-/

namespace Libdsys.Gauss

variable {F : Type} [Field F]

/-- Arithmetic that does not round. -/
def ofField (F : Type) [Field F] : FloatArith F where
  sub x y := x - y
  mul x y := x * y
  div x y := x / y
  zero := 0
  one := 1

section Rows

variable {dim i : ℕ} {row pivot x : ℕ → F}

/-- The left side of an equation. -/
def dot (dim : ℕ) (row x : ℕ → F) : F := ∑ j ∈ Finset.range dim, row j * x j

/-- **Dividing a row** divides its equation. -/
theorem dot_divideRow (hi : i < dim) (hzero : ∀ j < i, row j = 0) (hpivot : row i ≠ 0) :
    dot dim (divideRow (ofField F) dim i row) x = dot dim row x / row i := by
  rw [dot, dot, Finset.sum_div]
  refine Finset.sum_congr rfl fun j hj => ?_
  have hj := Finset.mem_range.mp hj
  rw [divideRow_apply hi]
  split
  · next h =>
    change 1 * x j = _
    rw [h, one_mul, mul_div_cancel_left₀ _ hpivot]
  · rw [if_neg (by omega)]
    split
    · exact div_mul_eq_mul_div _ _ _
    · rw [hzero j (by omega), zero_mul, zero_div]

/-- **Eliminating a row** subtracts a multiple of its equation. -/
theorem dot_eliminateRow (hi : i < dim) (hzero : ∀ j < i, pivot j = 0) (hone : pivot i = 1) :
    dot dim (eliminateRow (ofField F) dim i pivot row) x =
      dot dim row x - row i * dot dim pivot x := by
  rw [dot, dot, dot, Finset.mul_sum, ← Finset.sum_sub_distrib]
  refine Finset.sum_congr rfl fun j hj => ?_
  have hj := Finset.mem_range.mp hj
  rw [eliminateRow_apply hi]
  split
  · next h =>
    change 0 * x j = _
    rw [h, hone]
    ring
  · rw [if_neg (by omega)]
    split
    · change (row j - row i * pivot j) * x j = _
      ring
    · rw [hzero j (by omega)]
      ring

end Rows

/-! ## Equations -/

section Equations

variable {dim n : ℕ} {A : Matrix F} {x : ℕ → F}

/-- `x` solves the equations after `n` rows: their right sides are in the last column. -/
def Solves (dim n : ℕ) (A : Matrix F) (x : ℕ → F) : Prop :=
  ∀ r < dim, dot dim (A r) x = if r < n then A r (dim + 1) else A r dim

/-- What `n` rows leave: zeros below the diagonal, and ones on it. -/
structure Triangular (dim n : ℕ) (A : Matrix F) : Prop where
  zero : ∀ r < dim, ∀ j < n, j < r → A r j = 0
  one : ∀ r < n, A r r = 1

/-- **A row that has a pivot** extends the triangle. -/
theorem Triangular.seqStep (h : Triangular dim n A) (hn : n < dim) :
    Triangular dim (n + 1) (seqStep (ofField F) dim n A) where
  zero r hr j hj hjr := by
    rw [seqStep_row hn]
    split
    · next heq =>
      rw [divideRow_apply hn, if_neg (by omega), if_neg (by omega), if_neg (by omega),
        h.zero n hn j (by omega) (by omega)]
    · split
      · rw [eliminateRow_apply hn]
        split
        · rfl
        · rw [if_neg (by omega), if_neg (by omega), h.zero r hr j (by omega) hjr]
      · exact h.zero r hr j (by omega) hjr
  one r hr := by
    rw [seqStep_row hn]
    split
    · next heq => rw [divideRow_apply hn, if_pos heq]; rfl
    · rw [if_neg (by omega), h.one r (by omega)]

/-- **A row that has a pivot keeps the solutions.** -/
theorem seqStep_solves (h : Triangular dim n A) (hn : n < dim) (hpivot : A n n ≠ 0) :
    Solves dim (n + 1) (seqStep (ofField F) dim n A) x ↔ Solves dim n A x := by
  have hzero : ∀ j < n, A n j = 0 := fun j hj => h.zero n hn j hj hj
  have hdivided : ∀ j < n, divideRow (ofField F) dim n (A n) j = 0 := fun j hj => by
    rw [divideRow_apply hn, if_neg (by omega), if_neg (by omega), if_neg (by omega), hzero j hj]
  have hone : divideRow (ofField F) dim n (A n) n = 1 := by
    rw [divideRow_apply hn, if_pos rfl]
    rfl
  have hright : divideRow (ofField F) dim n (A n) (dim + 1) = A n dim / A n n := by
    rw [divideRow_apply hn, if_neg (by omega), if_pos rfl]
    rfl
  have hbehind (r : ℕ) : eliminateRow (ofField F) dim n (divideRow (ofField F) dim n (A n)) (A r)
      dim = A r dim - A r n * (A n dim / A n n) := by
    rw [eliminateRow_apply hn, if_neg (by omega), if_pos rfl, hright]
    rfl
  -- the equation of row `n`, before and after
  have hown : dot dim (A n) x / A n n = A n dim / A n n ↔ dot dim (A n) x = A n dim :=
    div_left_inj' hpivot
  constructor
  · intro hx r hr
    have hrow := hx r hr
    have hn' := hx n hn
    rw [seqStep_row hn, if_pos rfl, if_pos (Nat.lt_succ_self n), dot_divideRow hn hzero hpivot,
      hright, hown] at hn'
    rw [seqStep_row hn] at hrow
    split at hrow
    · next heq => rw [heq, if_neg (lt_irrefl n), hn']
    · split at hrow
      · next hlt =>
        rw [if_neg (by omega), dot_eliminateRow hn hdivided hone,
          dot_divideRow hn hzero hpivot, hbehind, hn'] at hrow
        rw [if_neg (by omega)]
        exact sub_left_injective hrow
      · rw [if_pos (by omega)] at hrow
        rw [if_pos (by omega), hrow]
  · intro hx r hr
    have hn' := hx n hn
    rw [if_neg (lt_irrefl n)] at hn'
    have hrow := hx r hr
    rw [seqStep_row hn]
    split
    · next heq =>
      rw [if_pos (by omega), dot_divideRow hn hzero hpivot, hright, hn']
    · split
      · next hlt =>
        rw [if_neg (by omega)] at hrow
        rw [if_neg (by omega), dot_eliminateRow hn hdivided hone, dot_divideRow hn hzero hpivot,
          hbehind, hn', hrow]
      · rw [if_pos (by omega)] at hrow
        rw [if_pos (by omega), hrow]

/-- All rows. -/
theorem seqTo_solves (hn : n ≤ dim)
    (hpivot : ∀ i < n, seqTo (ofField F) dim i A i i ≠ 0) :
    Triangular dim n (seqTo (ofField F) dim n A) ∧
      (Solves dim n (seqTo (ofField F) dim n A) x ↔ Solves dim 0 A x) := by
  induction n with
  | zero => exact ⟨⟨fun _ _ _ h => absurd h (Nat.not_lt_zero _), fun _ h => absurd h
      (Nat.not_lt_zero _)⟩, Iff.rfl⟩
  | succ n ih =>
    obtain ⟨htri, hiff⟩ := ih (by omega) fun i hi => hpivot i (by omega)
    rw [seqTo_succ]
    exact ⟨htri.seqStep hn, (seqStep_solves htri hn (hpivot n (Nat.lt_succ_self n))).trans hiff⟩

/-- **The elimination keeps the solutions**, where it divides by no zero: what it leaves has ones on
the diagonal, zeros before them, and the solutions of the equations that it was given. -/
theorem gaussianSeq_solves (A : Matrix F) (hpivot : ∀ i < dim, seqTo (ofField F) dim i A i i ≠ 0) :
    (∀ r < dim, gaussianSeq (ofField F) dim A r r = 1 ∧
      ∀ j < r, gaussianSeq (ofField F) dim A r j = 0) ∧
    ∀ x, (∀ r < dim, dot dim (gaussianSeq (ofField F) dim A r) x =
      gaussianSeq (ofField F) dim A r (dim + 1)) ↔ ∀ r < dim, dot dim (A r) x = A r dim := by
  constructor
  · intro r hr
    have htri := (seqTo_solves (x := fun _ => 0) le_rfl hpivot).1
    exact ⟨htri.one r hr, fun j hj => htri.zero r hr j (hj.trans hr) hj⟩
  · intro x
    have hiff := (seqTo_solves (x := x) le_rfl hpivot).2
    have hright : Solves dim dim (seqTo (ofField F) dim dim A) x ↔
        ∀ r < dim, dot dim (gaussianSeq (ofField F) dim A r) x =
          gaussianSeq (ofField F) dim A r (dim + 1) :=
      forall₂_congr fun r hr => by rw [if_pos hr]; rfl
    have hleft : Solves dim 0 A x ↔ ∀ r < dim, dot dim (A r) x = A r dim :=
      forall₂_congr fun r hr => by rw [if_neg (Nat.not_lt_zero r)]
    rw [← hright, hiff, hleft]

/-- `A`, where `DIMENSION` is three. -/
def threeRows : Matrix ℚ := fun i j =>
  (([[3, -20, 1, 12, 0], [1, 6, -4, 8, 0], [-1, 3, 5, 3, 0]] : List (List ℚ)).getD i []).getD j 0

theorem gaussianSeq_solves_three :
    (∀ r < 3, gaussianSeq (ofField ℚ) 3 threeRows r r = 1 ∧
      ∀ j < r, gaussianSeq (ofField ℚ) 3 threeRows r j = 0) ∧
    ∀ x, (∀ r < 3, dot 3 (gaussianSeq (ofField ℚ) 3 threeRows r) x =
      gaussianSeq (ofField ℚ) 3 threeRows r 4) ↔ ∀ r < 3, dot 3 (threeRows r) x = threeRows r 3 :=
  gaussianSeq_solves threeRows (by decide +kernel)

end Equations

end Libdsys.Gauss
