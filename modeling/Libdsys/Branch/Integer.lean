import Mathlib.Algebra.Order.Ring.Int
import Mathlib.Data.Int.ModEq
import Mathlib.Order.Bounds.Basic
import Libdsys.Branch.Variable

/-!
# Branch/Integer — the arithmetic of integer variables

The bytes of a unit are its value in two's complement, and give it back; what
`bc_variable_operation` stores is the value of the operation, as far as it fits.

* `intValue_foldl_add`, `intValue_foldl_max` — what one operation after another comes to.
-/

namespace Libdsys

variable {s : Bool} {w : ℕ} {y z : List Byte}

theorem two_pow_succ (w : ℕ) : 2 ^ (8 * (w + 1)) = 256 * 2 ^ (8 * w) := by
  rw [Nat.mul_succ, Nat.pow_add, Nat.mul_comm]

theorem ofBytes_lt (y : List Byte) : ofBytes y < 2 ^ (8 * y.length) := by
  induction y with
  | nil => decide
  | cons x y ih =>
    have hx := x.toNat_lt
    rw [ofBytes, List.length_cons, two_pow_succ]
    omega

theorem ofBytes_append (y z : List Byte) :
    ofBytes (y ++ z) = ofBytes y + 2 ^ (8 * y.length) * ofBytes z := by
  induction y with
  | nil => simp [ofBytes]
  | cons x y ih =>
    rw [List.cons_append, ofBytes, ofBytes, ih, List.length_cons, two_pow_succ, Nat.mul_assoc]
    omega

/-- The bytes of a number, as far as they go. -/
theorem ofBytes_toBytes (w x : ℕ) : ofBytes (toBytes w x) = x % 2 ^ (8 * w) := by
  induction w generalizing x with
  | zero => rw [toBytes, ofBytes, Nat.mul_zero, Nat.pow_zero, Nat.mod_one]
  | succ w ih =>
    have hx : x.toUInt8.toNat = x % 256 := rfl
    rw [toBytes, ofBytes, ih, two_pow_succ, Nat.mod_mul, hx]

theorem toBytes_ofBytes (y : List Byte) : toBytes y.length (ofBytes y) = y := by
  induction y with
  | nil => rfl
  | cons x y ih =>
    have hx := x.toNat_lt
    have hdiv : (x.toNat + 256 * ofBytes y) / 256 = ofBytes y := by omega
    have hmod : (x.toNat + 256 * ofBytes y).toUInt8 = x := by
      refine UInt8.toNat_inj.mp ?_
      change (x.toNat + 256 * ofBytes y) % 256 = x.toNat
      omega
    rw [ofBytes, List.length_cons, toBytes, hmod, hdiv, ih]

/-- A value in two's complement. -/
theorem intValue_modEq (s : Bool) (y : List Byte) :
    intValue s y ≡ ofBytes y [ZMOD 2 ^ (8 * y.length)] := by
  rw [intValue]
  split
  · exact Int.modEq_iff_dvd.mpr ⟨1, by omega⟩
  · rfl

/-- **The value that is stored**, as far as it fits. -/
theorem intValue_toBytes (s : Bool) (w : ℕ) (v : ℤ) :
    intValue s (toBytes w (v % 2 ^ (8 * w)).toNat) ≡ v [ZMOD 2 ^ (8 * w)] := by
  have hpos : (0 : ℤ) < 2 ^ (8 * w) := Int.pow_pos (by decide)
  have hvalue := intValue_modEq s (toBytes w (v % 2 ^ (8 * w)).toNat)
  rw [length_toBytes, ofBytes_toBytes] at hvalue
  refine hvalue.trans ?_
  have hnonneg := Int.emod_nonneg v hpos.ne'
  push_cast
  rw [Int.toNat_of_nonneg hnonneg]
  exact (Int.mod_modEq _ _).trans (Int.mod_modEq _ _)

/-- A natural number that is stored. -/
theorem intValue_toBytes_nat (s : Bool) (w x : ℕ) :
    intValue s (toBytes w x) ≡ x [ZMOD 2 ^ (8 * w)] := by
  have hvalue := intValue_modEq s (toBytes w x)
  rw [length_toBytes, ofBytes_toBytes] at hvalue
  refine hvalue.trans ?_
  push_cast
  exact Int.mod_modEq _ _

/-- **A value that is stored again** gives its bytes back. -/
theorem toBytes_intValue (s : Bool) (y : List Byte) :
    toBytes y.length (intValue s y % 2 ^ (8 * y.length)).toNat = y := by
  have hlt : (ofBytes y : ℤ) < 2 ^ (8 * y.length) := by exact_mod_cast ofBytes_lt y
  have hmod : intValue s y % 2 ^ (8 * y.length) = ofBytes y := by
    rw [intValue_modEq s y, Int.emod_eq_of_lt (Int.natCast_nonneg _) hlt]
  rw [hmod, Int.toNat_natCast, toBytes_ofBytes]

/-! ## Operations -/

theorem length_intOperation (w : ℕ) (s : Bool) (mode : VariableMode) (y z : List Byte) :
    (intOperation w s mode y z).length = w := length_toBytes _ _

theorem intValue_add (w : ℕ) (s : Bool) (y z : List Byte) :
    intValue s (intOperation w s .add y z) ≡ intValue s y + intValue s z [ZMOD 2 ^ (8 * w)] :=
  intValue_toBytes s w _

theorem intValue_multiply (w : ℕ) (s : Bool) (y z : List Byte) :
    intValue s (intOperation w s .multiply y z) ≡ intValue s y * intValue s z [ZMOD 2 ^ (8 * w)] :=
  intValue_toBytes s w _

theorem intValue_max (s : Bool) (hy : y.length = w) (hz : z.length = w) :
    intValue s (intOperation w s .max y z) = max (intValue s y) (intValue s z) := by
  subst hy
  rw [intOperation]
  split
  · next h => rw [toBytes_intValue, max_eq_left h.le]
  · next h => rw [← hz, toBytes_intValue, max_eq_right (not_lt.mp h)]

theorem intValue_min (s : Bool) (hy : y.length = w) (hz : z.length = w) :
    intValue s (intOperation w s .min y z) = min (intValue s y) (intValue s z) := by
  subst hy
  rw [intOperation]
  split
  · next h => rw [toBytes_intValue, min_eq_left h.le]
  · next h => rw [← hz, toBytes_intValue, min_eq_right (not_lt.mp h)]

/-- One operation after another, from `y` on. -/
theorem intValue_foldl_add (w : ℕ) (s : Bool) (y : List Byte) (zs : List (List Byte)) :
    intValue s (zs.foldl (intOperation w s .add) y) ≡
      intValue s y + (zs.map (intValue s)).sum [ZMOD 2 ^ (8 * w)] := by
  induction zs generalizing y with
  | nil => simp
  | cons z zs ih =>
    refine (ih _).trans (((intValue_add w s y z).add_right _).trans ?_)
    rw [List.map_cons, List.sum_cons, Int.add_assoc]

theorem intValue_foldl_multiply (w : ℕ) (s : Bool) (y : List Byte) (zs : List (List Byte)) :
    intValue s (zs.foldl (intOperation w s .multiply) y) ≡
      intValue s y * (zs.map (intValue s)).prod [ZMOD 2 ^ (8 * w)] := by
  induction zs generalizing y with
  | nil => simp
  | cons z zs ih =>
    refine (ih _).trans (((intValue_multiply w s y z).mul_right _).trans ?_)
    rw [List.map_cons, List.prod_cons, Int.mul_assoc]

/-- The greatest of some numbers, found one after the other. -/
theorem isGreatest_foldl_max (v : ℤ) (vs : List ℤ) :
    IsGreatest {x | x ∈ v :: vs} (vs.foldl max v) :=
  List.max?_eq_some_iff.mp List.max?_cons'

/-- The least of them. -/
theorem isLeast_foldl_min (v : ℤ) (vs : List ℤ) :
    IsLeast {x | x ∈ v :: vs} (vs.foldl min v) :=
  List.min?_eq_some_iff.mp List.min?_cons'

theorem intValue_foldl_max (s : Bool) {zs : List (List Byte)} (hy : y.length = w)
    (hz : ∀ z ∈ zs, z.length = w) : intValue s (zs.foldl (intOperation w s .max) y) =
      (zs.map (intValue s)).foldl max (intValue s y) := by
  induction zs generalizing y with
  | nil => rfl
  | cons z zs ih =>
    rw [List.forall_mem_cons] at hz
    rw [List.foldl_cons, ih (length_intOperation _ _ _ _ _) hz.2, intValue_max s hy hz.1]
    rfl

theorem intValue_foldl_min (s : Bool) {zs : List (List Byte)} (hy : y.length = w)
    (hz : ∀ z ∈ zs, z.length = w) : intValue s (zs.foldl (intOperation w s .min) y) =
      (zs.map (intValue s)).foldl min (intValue s y) := by
  induction zs generalizing y with
  | nil => rfl
  | cons z zs ih =>
    rw [List.forall_mem_cons] at hz
    rw [List.foldl_cons, ih (length_intOperation _ _ _ _ _) hz.2, intValue_min s hy hz.1]
    rfl

end Libdsys
