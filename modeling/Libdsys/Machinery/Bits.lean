import Mathlib.Data.Set.Function
import Mathlib.Algebra.Group.Nat.Defs

/-!
# Machinery/Bits — shifting the bits of one word into another

A loop takes the lowest bit of one word and puts it behind those of another.  After `k` times the
second word holds the `k` lowest bits of the first, in the opposite order.

* `getLsbD_shiftOver` — bit by bit, for every width and every `k` up to it.
* `reverse_reverse` — on the words of `k` bits it is its own inverse.
-/

namespace Machinery

variable {w k : ℕ}

/-- Once through the loop, for the word that is read and the word that is written. -/
def shiftBit (x : BitVec w × BitVec w) : BitVec w × BitVec w :=
  (x.1 >>> 1, (x.2 <<< 1) ||| (x.1 &&& 1#w))

/-- The lowest bit that is written is the lowest bit that was read. -/
theorem getLsbD_shiftBit_snd (x : BitVec w × BitVec w) (j : ℕ) :
    (shiftBit x).2.getLsbD j =
      (decide (j < w) && if j = 0 then x.1.getLsbD 0 else x.2.getLsbD (j - 1)) := by
  rw [shiftBit, BitVec.getLsbD_or, BitVec.getLsbD_shiftLeft, BitVec.getLsbD_and,
    BitVec.getLsbD_one]
  rcases j with _ | j
  · rcases w with _ | w <;> simp
  · simp

/-- The loop, `k` times. -/
def shiftOver (k : ℕ) (num : BitVec w) : BitVec w × BitVec w := shiftBit^[k] (num, 0#w)

theorem shiftOver_succ (k : ℕ) (num : BitVec w) :
    shiftOver (k + 1) num = shiftBit (shiftOver k num) :=
  Function.iterate_succ_apply' shiftBit k _

/-- **What is left to read** has lost its `k` lowest bits. -/
theorem shiftOver_fst (k : ℕ) (num : BitVec w) : (shiftOver k num).1 = num >>> k := by
  induction k with
  | zero => exact (BitVec.ushiftRight_zero num).symm
  | succ k ih => rw [shiftOver_succ, shiftBit, ih, BitVec.shiftRight_add]

/-- **What has been written** is the `k` lowest bits, the last one first. -/
theorem getLsbD_shiftOver (hk : k ≤ w) (num : BitVec w) (j : ℕ) :
    (shiftOver k num).2.getLsbD j = (decide (j < k) && num.getLsbD (k - 1 - j)) := by
  induction k generalizing j with
  | zero => simp [shiftOver]
  | succ k ih =>
    rw [shiftOver_succ, getLsbD_shiftBit_snd, shiftOver_fst]
    rcases j with _ | j
    · have hw : 0 < w := Nat.lt_of_lt_of_le (Nat.succ_pos k) hk
      simp [hw]
    · have hsub : k + 1 - 1 - (j + 1) = k - 1 - j := by omega
      rw [if_neg (Nat.succ_ne_zero j), Nat.add_sub_cancel, ih (Nat.le_of_succ_le hk), hsub]
      by_cases hj : j < k
      · simp [hj, Nat.lt_of_le_of_lt hj (Nat.lt_of_succ_le hk)]
      · simp [hj]

/-- A word below `2 ^ k` is one that has no bit from the `k`-th on. -/
theorem toNat_lt_two_pow_iff {x : BitVec w} :
    x.toNat < 2 ^ k ↔ ∀ j, k ≤ j → x.getLsbD j = false := by
  constructor
  · intro h j hj
    exact Nat.testBit_lt_two_pow (h.trans_le (Nat.pow_le_pow_right Nat.two_pos hj))
  · intro h
    exact Nat.lt_pow_two_of_testBit _ h

theorem toNat_shiftOver_lt (hk : k ≤ w) (num : BitVec w) : (shiftOver k num).2.toNat < 2 ^ k := by
  refine toNat_lt_two_pow_iff.mpr fun j hj => ?_
  rw [getLsbD_shiftOver hk, decide_eq_false (Nat.not_lt.mpr hj), Bool.false_and]

/-- **Twice is not at all**, on the words of `k` bits. -/
theorem reverse_reverse (hk : k ≤ w) {num : BitVec w} (hnum : num.toNat < 2 ^ k) :
    (shiftOver k (shiftOver k num).2).2 = num := by
  refine BitVec.eq_of_getLsbD_eq fun j _ => ?_
  rw [getLsbD_shiftOver hk, getLsbD_shiftOver hk]
  by_cases hj : j < k
  · have hback : k - 1 - (k - 1 - j) = j := by omega
    have hmirror : k - 1 - j < k := by omega
    rw [hback, decide_eq_true hj, decide_eq_true hmirror, Bool.true_and, Bool.true_and]
  · rw [decide_eq_false hj, Bool.false_and, toNat_lt_two_pow_iff.mp hnum j (Nat.not_lt.mp hj)]

end Machinery
