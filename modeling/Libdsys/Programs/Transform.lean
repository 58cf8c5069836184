import Libdsys.Programs.Fft
import Mathlib.Algebra.QuadraticAlgebra.Defs
import Mathlib.Analysis.SpecialFunctions.Trigonometric.Basic
import Mathlib.Tactic.LinearCombination

/-!
# Programs/Transform — what the Fourier transform of the examples computes

With arithmetic that does not round, complex numbers are a ring, and the values of `omega` are roots
of one.

* `transforms_iff` — the program computes the Fourier transform of up to eight coefficients.
-/

open Machinery

namespace Libdsys.Fft

variable {D : Type} [CommRing D]

/-- Arithmetic that does not round. -/
structure Exact (O : DoubleArith D) : Prop where
  add : ∀ x y, O.add x y = x + y
  sub : ∀ x y, O.sub x y = x - y
  mul : ∀ x y, O.mul x y = x * y
  zero : O.ofInt 0 = 0
  one : O.ofInt 1 = 1

/-- A complex number. -/
def toRing (c : Complex D) : QuadraticAlgebra D (-1) 0 := ⟨c.real, c.img⟩

/-- The root of order `2 ^ i`. -/
def root (O : DoubleArith D) (T : Trig D) (i : ℕ) : QuadraticAlgebra D (-1) 0 :=
  toRing (omegaRoot O T (1 <<< i))

/-- The processes print the Fourier transform of the coefficients. -/
def Transforms (O : DoubleArith D) (T : Trig D) (n : ℕ) : Prop :=
  ∀ page : ℕ → Complex D, ∀ r < 2 ^ n, toRing (after O T n page n r) =
    ∑ u ∈ Finset.range (2 ^ n), toRing (page u) * root O T n ^ (r * u)

section Ring

variable {O : DoubleArith D} {T : Trig D} {n : ℕ}

theorem toRing_mul (hO : Exact O) (a b : Complex D) :
    toRing (complexMul O a b) = toRing a * toRing b := by
  ext
  · simp [toRing, complexMul, hO.sub, hO.mul, sub_eq_add_neg]
  · simp [toRing, complexMul, hO.add, hO.mul]

theorem toRing_pow (hO : Exact O) (a : Complex D) (p : ℕ) :
    toRing (complexPow O a p) = toRing a ^ p := by
  induction p with
  | zero =>
    rw [pow_zero]
    ext
    · exact hO.one
    · exact hO.zero
  | succ p ih =>
    cases p with
    | zero => rw [zero_add, pow_one]; rfl
    | succ p => rw [complexPow, toRing_mul hO, ih, ← pow_succ]

/-- **The values that are printed**, in the ring. -/
theorem toRing_after (hO : Exact O) (page : ℕ → Complex D) (i r : ℕ) :
    toRing (after O T n page i r) = ringStages (fun i r => root O T (i + 1) ^ stepTo i r)
      (fun r => toRing (page (reversed n r))) i r := by
  refine map_stages toRing (fun a b => ?_) (fun a b => ?_) (fun i r a => ?_) _ i r
  · ext <;> simp [toRing, complexAdd, hO.add]
  · ext <;> simp [toRing, complexSub, hO.sub]
  · rw [twist, toRing_mul hO, toRing_pow hO]
    rfl

end Ring

/-! ## The steps -/

theorem xor_lt_iff (i r : ℕ) : 2 ^ i ^^^ r < r ↔ r / 2 ^ i % 2 = 1 := by
  have hpos := Nat.two_pow_pos i
  obtain ⟨q, s, hs, rfl | rfl⟩ := exists_block i r
  · rw [two_pow_xor_even hs, Nat.mul_add_div hpos, Nat.div_eq_of_lt hs, Nat.mul_succ]
    omega
  · rw [two_pow_xor_odd hs, Nat.mul_add_div hpos, Nat.div_eq_of_lt hs, Nat.mul_succ]
    omega

/-- The steps are right in the first three turns. -/
theorem stepTo_of_lt {i : ℕ} (hi : i < 3) (q : ℕ) {s : ℕ} (hs : s < 2 ^ i) :
    stepTo i (2 ^ i * (2 * q + 1) + s) = s := by
  obtain rfl | rfl | rfl : i = 0 ∨ i = 1 ∨ i = 2 := by omega
  · exact (Nat.lt_one_iff.mp hs).symm
  · simp only [stepTo, xor_lt_iff]
    split <;> omega
  · simp only [stepTo, xor_lt_iff]
    split <;> split <;> omega

/-- In the fourth they are not. -/
example : stepTo 3 12 = 3 := by decide

/-! ## The transform -/

section Transform

variable {O : DoubleArith D} {T : Trig D} {n : ℕ}

/-- **Up to eight coefficients are transformed.** -/
theorem transforms_of_le (hO : Exact O) (hroots : Roots n (root O T)) (hn : n ≤ 3) :
    Transforms O T n := by
  intro page r hr
  rw [toRing_after hO]
  exact ringStages_transform hroots
    (fun i hi q s hs => by rw [stepTo_of_lt (by omega) q hs]) (fun u => toRing (page u)) hr

/-- The coefficients of which one is not zero. -/
def alone (n u : ℕ) : Complex D := if u = reversed n (2 ^ 3) then ⟨1, 0⟩ else ⟨0, 0⟩

theorem toRing_alone (hn : 4 ≤ n) {r : ℕ} (hr : r < 2 ^ n) :
    toRing (alone n (reversed n r)) = (single 3 r : QuadraticAlgebra D (-1) 0) := by
  have height : 2 ^ 3 < 2 ^ n := Nat.pow_lt_pow_right Nat.one_lt_two (by omega)
  have hiff : reversed n r = reversed n (2 ^ 3) ↔ r = 2 ^ 3 :=
    ⟨reversed_inj hr height, fun h => by rw [h]⟩
  rw [alone, single, if_congr hiff rfl rfl]
  split <;> rfl

/-- **More are not**: the process of rank twelve prints another value. -/
theorem not_transforms (hO : Exact O) (hroots : Roots n (root O T)) (htwo : (2 : D) ≠ 0)
    (hn : 4 ≤ n) : ¬ Transforms O T n := by
  intro h
  have hr : 2 ^ 3 + 4 < 2 ^ n :=
    (by decide : 2 ^ 3 + 4 < 2 ^ 4).trans_le (Nat.pow_le_pow_right Nat.two_pos hn)
  have hvalue := h (alone n) (2 ^ 3 + 4) hr
  have hstages := stages_congr (· + ·) (· - ·) (fun i r c => c * root O T (i + 1) ^ stepTo i r)
    (fun r => toRing (alone n (reversed n r))) (fun r hr => toRing_alone hn hr) le_rfl hr
  have hsingle := ringStages_single (fun i r => root O T (i + 1) ^ stepTo i r)
    (show 3 < n by omega) (show 4 < 2 ^ 3 by decide)
  obtain ⟨m, rfl⟩ := Nat.exists_eq_add_of_le hn
  have hsum : ∑ u ∈ Finset.range (2 ^ (4 + m)),
      toRing (alone (4 + m) u) * root O T (4 + m) ^ ((2 ^ 3 + 4) * u) =
        root O T (4 + m) ^ ((2 ^ 3 + 4) * reversed (4 + m) (2 ^ 3)) := by
    rw [Finset.sum_eq_single (reversed (4 + m) (2 ^ 3))]
    · rw [alone, if_pos rfl]
      exact one_mul _
    · intro u _ hu
      rw [alone, if_neg hu]
      exact zero_mul _
    · exact fun h => absurd (Finset.mem_range.mpr (reversed_lt _ _)) h
  have hlast : 4 + m - 1 - 3 = m := by omega
  rw [reversed_two_pow (by omega), hlast, Nat.mul_comm, pow_mul,
    hroots.pow_two_pow (by decide) le_rfl] at hsum
  rw [toRing_after hO] at hvalue
  have htwelve : root O T 4 ^ 12 = -root O T 4 ^ 3 :=
    hsum.symm.trans (hvalue.symm.trans (hstages.trans hsingle))
  have height : root O T 4 ^ 8 = -1 := hroots.half (i := 3) (by omega)
  have hone : root O T 4 = 1 := by
    linear_combination root O T 4 ^ 5 * htwelve -
      (root O T 4 * (root O T 4 ^ 8 - 1) + 1) * height
  rw [hone, one_pow] at height
  have hre := congrArg QuadraticAlgebra.re height
  change (1 : D) = -1 at hre
  exact htwo (by linear_combination hre)

/-- **The program computes the Fourier transform, whatever the coefficients are, if and only if
there are at most eight**: `step` grows by `i` where it should by `2 ^ (i - 1)`. -/
theorem transforms_iff (hO : Exact O) (hroots : Roots n (root O T)) (htwo : (2 : D) ≠ 0) :
    Transforms O T n ↔ n ≤ 3 := by
  constructor
  · intro h
    by_contra hn
    exact not_transforms hO hroots htwo (by omega) h
  · exact transforms_of_le hO hroots

end Transform

/-! ## Real numbers -/

/-- The arithmetic of real numbers. -/
noncomputable def realArith : DoubleArith ℝ where
  add x y := x + y
  sub x y := x - y
  mul x y := x * y
  div x y := x / y
  gt x y := decide (x > y)
  ofInt x := x

/-- Their trigonometry. -/
noncomputable def realTrig : Trig ℝ := ⟨Real.cos, Real.sin, 2 * Real.pi⟩

theorem exact_real : Exact realArith where
  add _ _ := rfl
  sub _ _ := rfl
  mul _ _ := rfl
  zero := Int.cast_zero
  one := Int.cast_one

theorem root_real (i : ℕ) : root realArith realTrig i =
    ⟨Real.cos (2 * Real.pi / 2 ^ i), Real.sin (2 * Real.pi / 2 ^ i)⟩ := by
  have hcast : realArith.ofInt ((1 <<< i : ℕ) : ℤ) = 2 ^ i := by
    rw [Nat.one_shiftLeft]
    simp [realArith]
  rw [root, omegaRoot, hcast]
  rfl

theorem roots_real (n : ℕ) : Roots n (root realArith realTrig) where
  one _ := by
    have hhalf : 2 * Real.pi / 2 ^ 1 = Real.pi := by ring
    rw [root_real, hhalf, Real.cos_pi, Real.sin_pi]
    ext
    · rfl
    · exact neg_zero.symm
  sq i _ _ := by
    have hdouble : 2 * Real.pi / 2 ^ i = 2 * (2 * Real.pi / 2 ^ (i + 1)) := by
      rw [pow_succ]
      field_simp
    rw [root_real, root_real, hdouble, Real.cos_two_mul', Real.sin_two_mul, sq]
    ext
    · simp
      ring
    · simp
      ring

theorem transforms_iff_four : ¬ Transforms realArith realTrig 4 :=
  fun h => absurd ((transforms_iff exact_real (roots_real 4) two_ne_zero).mp h) (by decide)

end Libdsys.Fft
