import Libdsys.Machinery.Bits
import Mathlib.Algebra.BigOperators.Group.Finset.Basic
import Mathlib.Algebra.BigOperators.Ring.Finset
import Mathlib.Tactic.Ring

/-!
# Machinery/Butterflies — Fourier transforms by stages

The values are numbered.  In stage `i` two of them whose numbers differ in bit `i` become their sum
and their difference, once the one with the bit has been twisted.

* `stages_even` / `stages_odd` — the numbers of a stage, as blocks of `2 ^ i`.
* `ringStages_transform` — with powers of roots of one for twists, and reversed numbers at first, the
  stages are a Fourier transform.
* `ringStages_single` — what becomes of a single value, whatever the factors are.
-/

namespace Machinery

/-! ## Reversed numbers -/

/-- The `n` lowest bits of a number, in the opposite order. -/
def reversed : ℕ → ℕ → ℕ
  | 0, _ => 0
  | n + 1, x => 2 ^ n * (x % 2) + reversed n (x / 2)

theorem reversed_lt (n x : ℕ) : reversed n x < 2 ^ n := by
  induction n generalizing x with
  | zero => exact Nat.one_pos
  | succ n ih =>
    have hrest := ih (x / 2)
    have hbit : 2 ^ n * (x % 2) ≤ 2 ^ n * 1 := Nat.mul_le_mul_left (2 ^ n) (by omega)
    rw [reversed, Nat.pow_succ]
    omega

theorem testBit_reversed (n x j : ℕ) :
    (reversed n x).testBit j = (decide (j < n) && x.testBit (n - 1 - j)) := by
  induction n generalizing x with
  | zero => simp [reversed]
  | succ n ih =>
    rw [reversed, Nat.testBit_two_pow_mul_add _ (reversed_lt n _), ih]
    obtain hlt | rfl | hgt := Nat.lt_trichotomy j n
    · have hsub : n + 1 - 1 - j = n - 1 - j + 1 := by omega
      rw [if_pos hlt, hsub, Nat.testBit_succ, decide_eq_true hlt,
        decide_eq_true (Nat.lt_succ_of_lt hlt)]
    · simp [Nat.testBit_zero]
    · have hbit : x % 2 < 2 ^ (j - n) :=
        (Nat.mod_lt x Nat.two_pos).trans_le (Nat.pow_le_pow_right Nat.two_pos
          (Nat.sub_pos_of_lt hgt) : 2 ^ 1 ≤ 2 ^ (j - n))
      rw [if_neg (Nat.not_lt.mpr hgt.le), decide_eq_false (by omega), Bool.false_and,
        Nat.testBit_lt_two_pow hbit]

/-- **The loop reverses numbers.** -/
theorem toNat_shiftOver {w n : ℕ} (hn : n ≤ w) (x : BitVec w) :
    (shiftOver n x).2.toNat = reversed n x.toNat := by
  refine Nat.eq_of_testBit_eq fun j => ?_
  exact (getLsbD_shiftOver hn x j).trans (testBit_reversed n x.toNat j).symm

theorem reversed_even (n q : ℕ) : reversed (n + 1) (2 * q) = reversed n q := by
  rw [reversed, Nat.mul_mod_right, Nat.mul_div_cancel_left q Nat.two_pos, Nat.mul_zero, Nat.zero_add]

theorem reversed_odd (n q : ℕ) : reversed (n + 1) (2 * q + 1) = 2 ^ n + reversed n q := by
  have hmod : (2 * q + 1) % 2 = 1 := by omega
  have hdiv : (2 * q + 1) / 2 = q := by omega
  rw [reversed, hmod, hdiv, Nat.mul_one]

theorem reversed_two_pow {n j : ℕ} (hj : j < n) : reversed n (2 ^ j) = 2 ^ (n - 1 - j) := by
  refine Nat.eq_of_testBit_eq fun k => ?_
  rw [testBit_reversed, Nat.testBit_two_pow, Nat.testBit_two_pow, ← Bool.decide_and]
  exact decide_eq_decide.mpr ⟨fun h => by omega, fun h => ⟨by omega, by omega⟩⟩

theorem reversed_inj {n x y : ℕ} (hx : x < 2 ^ n) (hy : y < 2 ^ n)
    (h : reversed n x = reversed n y) : x = y := by
  refine Nat.eq_of_testBit_eq fun j => ?_
  by_cases hj : j < n
  · have hback : n - 1 - (n - 1 - j) = j := by omega
    have hmirror : n - 1 - j < n := by omega
    have hbit := congrArg (·.testBit (n - 1 - j)) h
    simpa only [testBit_reversed, hback, hmirror, decide_true, Bool.true_and] using hbit
  · have hle : 2 ^ n ≤ 2 ^ j := Nat.pow_le_pow_right Nat.two_pos (Nat.not_lt.mp hj)
    rw [Nat.testBit_lt_two_pow (hx.trans_le hle), Nat.testBit_lt_two_pow (hy.trans_le hle)]

/-! ## Stages -/

section Stages

variable {α : Type*}

/-- What `i` stages leave. -/
def stages (add sub : α → α → α) (twist : ℕ → ℕ → α → α) (x : ℕ → α) : ℕ → ℕ → α
  | 0, r => x r
  | i + 1, r =>
    let across := stages add sub twist x i (2 ^ i ^^^ r)
    let own := stages add sub twist x i r
    if 2 ^ i ^^^ r < r then sub across (twist i r own) else add (twist i (2 ^ i ^^^ r) across) own

variable {i s : ℕ}

/-- Bit `i` distinguishes the two blocks of `2 ^ i` that make one of `2 ^ (i + 1)`. -/
theorem two_pow_xor_even (hs : s < 2 ^ i) (q : ℕ) :
    2 ^ i ^^^ (2 ^ i * (2 * q) + s) = 2 ^ i * (2 * q + 1) + s := by
  refine Nat.eq_of_testBit_eq fun j => ?_
  rw [Nat.testBit_xor, Nat.testBit_two_pow, Nat.testBit_two_pow_mul_add _ hs,
    Nat.testBit_two_pow_mul_add _ hs]
  obtain hlt | rfl | hgt := Nat.lt_trichotomy j i
  · simp [hlt, hlt.ne']
  · simp [Nat.testBit_zero]
  · obtain ⟨k, rfl⟩ := Nat.exists_eq_add_of_lt hgt
    have hsub : i + k + 1 - i = k + 1 := by omega
    have hdiv : (2 * q + 1) / 2 = 2 * q / 2 := by omega
    simp [Nat.not_lt.mpr hgt.le, hgt.ne, hsub, Nat.testBit_succ, hdiv]

theorem two_pow_xor_odd (hs : s < 2 ^ i) (q : ℕ) :
    2 ^ i ^^^ (2 ^ i * (2 * q + 1) + s) = 2 ^ i * (2 * q) + s := by
  rw [← two_pow_xor_even hs, ← Nat.xor_assoc, Nat.xor_self, Nat.zero_xor]

/-- Every number is in one of these blocks. -/
theorem exists_block (i r : ℕ) :
    ∃ q s, s < 2 ^ i ∧ (r = 2 ^ i * (2 * q) + s ∨ r = 2 ^ i * (2 * q + 1) + s) := by
  have hr := Nat.div_add_mod r (2 ^ i)
  refine ⟨r / 2 ^ i / 2, r % 2 ^ i, Nat.mod_lt r (Nat.two_pow_pos i), ?_⟩
  obtain heven | hodd := Nat.mod_two_eq_zero_or_one (r / 2 ^ i)
  · have hhalf : 2 * (r / 2 ^ i / 2) = r / 2 ^ i := by omega
    rw [hhalf]
    exact .inl hr.symm
  · have hhalf : 2 * (r / 2 ^ i / 2) + 1 = r / 2 ^ i := by omega
    rw [hhalf]
    exact .inr hr.symm

variable (add sub : α → α → α) (twist : ℕ → ℕ → α → α) (x : ℕ → α)

theorem stages_even (hs : s < 2 ^ i) (q : ℕ) :
    stages add sub twist x (i + 1) (2 ^ i * (2 * q) + s) =
      add (twist i (2 ^ i * (2 * q + 1) + s)
        (stages add sub twist x i (2 ^ i * (2 * q + 1) + s)))
        (stages add sub twist x i (2 ^ i * (2 * q) + s)) := by
  have hlt : ¬ 2 ^ i * (2 * q + 1) + s < 2 ^ i * (2 * q) + s := by
    rw [Nat.mul_succ]
    omega
  simp only [stages, two_pow_xor_even hs, if_neg hlt]

theorem stages_odd (hs : s < 2 ^ i) (q : ℕ) :
    stages add sub twist x (i + 1) (2 ^ i * (2 * q + 1) + s) =
      sub (stages add sub twist x i (2 ^ i * (2 * q) + s))
        (twist i (2 ^ i * (2 * q + 1) + s)
          (stages add sub twist x i (2 ^ i * (2 * q + 1) + s))) := by
  have hlt : 2 ^ i * (2 * q) + s < 2 ^ i * (2 * q + 1) + s := by
    have hpos := Nat.two_pow_pos i
    rw [Nat.mul_succ]
    omega
  simp only [stages, two_pow_xor_odd hs, if_pos hlt]

/-- A map that keeps sums, differences and twists keeps all stages. -/
theorem map_stages {β : Type*} {add sub : α → α → α} {twist : ℕ → ℕ → α → α} (f : α → β)
    {add' sub' : β → β → β} {twist' : ℕ → ℕ → β → β} (hadd : ∀ a b, f (add a b) = add' (f a) (f b))
    (hsub : ∀ a b, f (sub a b) = sub' (f a) (f b))
    (htwist : ∀ i r a, f (twist i r a) = twist' i r (f a)) (x : ℕ → α) (i r : ℕ) :
    f (stages add sub twist x i r) = stages add' sub' twist' (fun r => f (x r)) i r := by
  induction i generalizing r with
  | zero => rfl
  | succ i ih =>
    simp only [stages]
    split
    · rw [hsub, htwist, ih, ih]
    · rw [hadd, htwist, ih, ih]

/-- The stages stay below `2 ^ n`. -/
theorem stages_congr {n : ℕ} {y : ℕ → α} (h : ∀ r < 2 ^ n, x r = y r) (hi : i ≤ n) {r : ℕ}
    (hr : r < 2 ^ n) : stages add sub twist x i r = stages add sub twist y i r := by
  induction i generalizing r with
  | zero => exact h r hr
  | succ i ih =>
    have hacross : 2 ^ i ^^^ r < 2 ^ n :=
      Nat.xor_lt_two_pow (Nat.pow_lt_pow_right Nat.one_lt_two hi) hr
    simp only [stages, ih (Nat.le_of_succ_le hi) hr, ih (Nat.le_of_succ_le hi) hacross]

end Stages

/-! ## Over a ring -/

section Ring

variable {K : Type*} [CommRing K] {n i s : ℕ}

/-- The stages of a transform: a value is twisted by a factor. -/
def ringStages (factor : ℕ → ℕ → K) : (ℕ → K) → ℕ → ℕ → K :=
  stages (· + ·) (· - ·) fun i r c => c * factor i r

theorem ringStages_even (factor : ℕ → ℕ → K) (x : ℕ → K) (hs : s < 2 ^ i) (q : ℕ) :
    ringStages factor x (i + 1) (2 ^ i * (2 * q) + s) =
      ringStages factor x i (2 ^ i * (2 * q + 1) + s) * factor i (2 ^ i * (2 * q + 1) + s) +
        ringStages factor x i (2 ^ i * (2 * q) + s) :=
  stages_even _ _ _ x hs q

theorem ringStages_odd (factor : ℕ → ℕ → K) (x : ℕ → K) (hs : s < 2 ^ i) (q : ℕ) :
    ringStages factor x (i + 1) (2 ^ i * (2 * q + 1) + s) =
      ringStages factor x i (2 ^ i * (2 * q) + s) -
        ringStages factor x i (2 ^ i * (2 * q + 1) + s) * factor i (2 ^ i * (2 * q + 1) + s) :=
  stages_odd _ _ _ x hs q

/-- A sum, by even and odd numbers. -/
theorem sum_range_two_mul (f : ℕ → K) (n : ℕ) : ∑ u ∈ Finset.range (2 * n), f u =
    (∑ u ∈ Finset.range n, f (2 * u)) + ∑ u ∈ Finset.range n, f (2 * u + 1) := by
  induction n with
  | zero => simp
  | succ n ih =>
    rw [Nat.mul_succ, Finset.sum_range_succ, Finset.sum_range_succ, ih, Finset.sum_range_succ,
      Finset.sum_range_succ]
    ring

/-- Roots of one, of the orders `2 ^ i`. -/
structure Roots (n : ℕ) (root : ℕ → K) : Prop where
  one : 1 ≤ n → root 1 = -1
  sq : ∀ i, 1 ≤ i → i < n → root (i + 1) ^ 2 = root i

variable {root : ℕ → K}

/-- Half way round. -/
theorem Roots.half (h : Roots n root) (hi : i < n) : root (i + 1) ^ 2 ^ i = -1 := by
  induction i with
  | zero => rw [Nat.pow_zero, pow_one, h.one (by omega)]
  | succ i ih => rw [Nat.pow_succ', pow_mul, h.sq _ (Nat.succ_pos i) hi, ih (by omega)]

theorem Roots.pow_two_pow (h : Roots n root) {m : ℕ} (hi : 1 ≤ i) (hm : i + m ≤ n) :
    root (i + m) ^ 2 ^ m = root i := by
  induction m with
  | zero => rw [Nat.pow_zero, pow_one, Nat.add_zero]
  | succ m ih =>
    have hsq := h.sq (i + m) (by omega) (by omega)
    rw [← Nat.add_assoc, Nat.pow_succ', pow_mul, hsq, ih (by omega)]

/-- **The stages are a Fourier transform** of each block: after `i` of them, value `s` of block `q`
is that of the coefficients whose numbers are `reversed q` above the multiples of `2 ^ (n - i)`. -/
theorem ringStages_block (h : Roots n root) {factor : ℕ → ℕ → K}
    (hfactor : ∀ i < n, ∀ q s, s < 2 ^ i →
      factor i (2 ^ i * (2 * q + 1) + s) = root (i + 1) ^ s)
    (a : ℕ → K) (hi : i ≤ n) (q : ℕ) (hs : s < 2 ^ i) :
    ringStages factor (fun r => a (reversed n r)) i (2 ^ i * q + s) =
      ∑ u ∈ Finset.range (2 ^ i),
        a (u * 2 ^ (n - i) + reversed (n - i) q) * root i ^ (s * u) := by
  induction i generalizing q s with
  | zero =>
    obtain rfl : s = 0 := by simpa using hs
    simp [ringStages, stages]
  | succ i ih =>
    have hlt : i < n := hi
    obtain ⟨m, hm⟩ : ∃ m, n - i = m + 1 := ⟨n - (i + 1), by omega⟩
    have hm' : n - (i + 1) = m := by omega
    -- a transform of half the size, at the even and at the odd coefficients
    have hsq {t : ℕ} (ht : t < 2 ^ i) (u : ℕ) :
        root i ^ (t * u) = root (i + 1) ^ (2 * (t * u)) := by
      obtain rfl | hpos := Nat.eq_zero_or_pos i
      · obtain rfl : t = 0 := by simpa using ht
        simp
      · rw [← h.sq i hpos hlt, ← pow_mul]
    have heven {t : ℕ} (ht : t < 2 ^ i) :
        ringStages factor (fun r => a (reversed n r)) i (2 ^ i * (2 * q) + t) =
          ∑ u ∈ Finset.range (2 ^ i),
            a (2 * u * 2 ^ m + reversed m q) * root (i + 1) ^ (2 * (t * u)) := by
      rw [ih hlt.le (2 * q) ht, hm, reversed_even]
      refine Finset.sum_congr rfl fun u _ => ?_
      rw [hsq ht, Nat.pow_succ, Nat.mul_comm (2 ^ m), ← Nat.mul_assoc, Nat.mul_comm u]
    have hodd {t : ℕ} (ht : t < 2 ^ i) :
        ringStages factor (fun r => a (reversed n r)) i (2 ^ i * (2 * q + 1) + t) =
          ∑ u ∈ Finset.range (2 ^ i),
            a ((2 * u + 1) * 2 ^ m + reversed m q) * root (i + 1) ^ (2 * (t * u)) := by
      rw [ih hlt.le (2 * q + 1) ht, hm, reversed_odd]
      refine Finset.sum_congr rfl fun u _ => ?_
      have hplace : u * 2 ^ (m + 1) + (2 ^ m + reversed m q) =
          (2 * u + 1) * 2 ^ m + reversed m q := by
        rw [Nat.pow_succ]
        ring
      rw [hsq ht, hplace]
    rw [hm', Nat.pow_succ', sum_range_two_mul]
    obtain hlow | hhigh := Nat.lt_or_ge s (2 ^ i)
    · have hblock : 2 * 2 ^ i * q + s = 2 ^ i * (2 * q) + s := by ring
      rw [hblock, ringStages_even _ _ hlow, hfactor i hlt q s hlow, heven hlow, hodd hlow, add_comm,
        Finset.sum_mul]
      refine congrArg₂ _ (Finset.sum_congr rfl fun u _ => ?_) (Finset.sum_congr rfl fun u _ => ?_)
      · ring
      · ring
    · obtain ⟨t, rfl⟩ := Nat.exists_eq_add_of_le hhigh
      have ht : t < 2 ^ i := by
        rw [Nat.pow_succ'] at hs
        omega
      have hblock : 2 * 2 ^ i * q + (2 ^ i + t) = 2 ^ i * (2 * q + 1) + t := by ring
      have hhalf := h.half hlt
      rw [hblock, ringStages_odd _ _ ht, hfactor i hlt q t ht, heven ht, hodd ht, sub_eq_add_neg,
        Finset.sum_mul, ← Finset.sum_neg_distrib]
      have hround (u : ℕ) : root (i + 1) ^ ((2 ^ i + t) * (2 * u)) =
          root (i + 1) ^ (2 * (t * u)) := by
        have hexp : (2 ^ i + t) * (2 * u) = 2 ^ i * (2 * u) + 2 * (t * u) := by ring
        rw [hexp, pow_add, pow_mul, hhalf, pow_mul, neg_one_sq, one_pow, one_mul]
      refine congrArg₂ _ (Finset.sum_congr rfl fun u _ => ?_) (Finset.sum_congr rfl fun u _ => ?_)
      · rw [hround]
      · have hexp : (2 ^ i + t) * (2 * u + 1) = (2 ^ i + t) * (2 * u) + 2 ^ i + t := by ring
        rw [hexp, pow_add, pow_add, hround, hhalf]
        ring

/-- **The stages are a Fourier transform.** -/
theorem ringStages_transform (h : Roots n root) {factor : ℕ → ℕ → K}
    (hfactor : ∀ i < n, ∀ q s, s < 2 ^ i →
      factor i (2 ^ i * (2 * q + 1) + s) = root (i + 1) ^ s)
    (a : ℕ → K) {r : ℕ} (hr : r < 2 ^ n) :
    ringStages factor (fun r => a (reversed n r)) n r =
      ∑ u ∈ Finset.range (2 ^ n), a u * root n ^ (r * u) := by
  have hblock := ringStages_block h hfactor a le_rfl 0 hr
  rw [Nat.mul_zero, Nat.zero_add, Nat.sub_self] at hblock
  simpa [reversed] using hblock

/-! ## A single value -/

section Single

variable (factor : ℕ → ℕ → K) {x : ℕ → K} {j : ℕ}

/-- Where the odd block is empty, the values of the even one stay. -/
theorem ringStages_of_zero {q : ℕ}
    (hzero : ∀ t < 2 ^ i, ringStages factor x i (2 ^ i * (2 * q + 1) + t) = 0)
    (hs : s < 2 ^ (i + 1)) : ∃ t < 2 ^ i,
      ringStages factor x (i + 1) (2 ^ (i + 1) * q + s) =
        ringStages factor x i (2 ^ i * (2 * q) + t) := by
  obtain hlow | hhigh := Nat.lt_or_ge s (2 ^ i)
  · have hblock : 2 ^ (i + 1) * q + s = 2 ^ i * (2 * q) + s := by ring
    refine ⟨s, hlow, ?_⟩
    rw [hblock, ringStages_even _ _ hlow, hzero s hlow, zero_mul, zero_add]
  · obtain ⟨t, rfl⟩ := Nat.exists_eq_add_of_le hhigh
    have ht : t < 2 ^ i := by
      rw [Nat.pow_succ'] at hs
      omega
    have hblock : 2 ^ (i + 1) * q + (2 ^ i + t) = 2 ^ i * (2 * q + 1) + t := by ring
    refine ⟨t, ht, ?_⟩
    rw [hblock, ringStages_odd _ _ ht, hzero t ht, zero_mul, sub_zero]

/-- The value that has number `2 ^ j`. -/
def single (j r : ℕ) : K := if r = 2 ^ j then 1 else 0

/-- Until stage `j` it fills its block. -/
theorem ringStages_single_block (hi : i ≤ j) (q : ℕ) (hs : s < 2 ^ i) :
    ringStages factor (single j) i (2 ^ i * q + s) = if q = 2 ^ (j - i) then 1 else 0 := by
  induction i generalizing q s with
  | zero =>
    obtain rfl : s = 0 := by simpa using hs
    simp [ringStages, stages, single]
  | succ i ih =>
    have hlt : i < j := hi
    obtain ⟨m, hm⟩ : ∃ m, j - i = m + 1 := ⟨j - (i + 1), by omega⟩
    have hm' : j - (i + 1) = m := by omega
    have heven : 2 * q = 2 ^ (m + 1) ↔ q = 2 ^ m := by
      rw [Nat.pow_succ']
      omega
    have hodd : ¬ 2 * q + 1 = 2 ^ (m + 1) := by
      rw [Nat.pow_succ']
      omega
    obtain ⟨t, ht, hvalue⟩ := ringStages_of_zero factor (x := single j) (q := q)
      (fun t ht => by rw [ih hlt.le _ ht, hm, if_neg hodd]) hs
    rw [hvalue, ih hlt.le _ ht, hm, hm']
    exact if_congr heven rfl rfl

/-- From then on it is in the first block. -/
theorem ringStages_single_zero (hj : j < i) {q : ℕ} (hq : 1 ≤ q) (hs : s < 2 ^ i) :
    ringStages factor (single j) i (2 ^ i * q + s) = 0 := by
  induction i, hj using Nat.le_induction generalizing q s with
  | base =>
    have hblock {q t : ℕ} (ht : t < 2 ^ j) (hq : q ≠ 1) :
        ringStages factor (single j) j (2 ^ j * q + t) = 0 := by
      rw [ringStages_single_block factor le_rfl q ht, Nat.sub_self]
      exact if_neg hq
    obtain ⟨t, ht, hvalue⟩ := ringStages_of_zero factor (x := single j) (q := q)
      (fun t ht => hblock ht (by omega)) hs
    rw [hvalue, hblock ht (by omega)]
  | succ i hji ih =>
    obtain ⟨t, ht, hvalue⟩ := ringStages_of_zero factor (x := single j) (q := q)
      (fun t ht => ih (by omega) ht) hs
    rw [hvalue, ih (by omega) ht]

/-- **A single value meets one factor**, that of stage `j`, and no later one. -/
theorem ringStages_single (hj : j < i) (hs : s < 2 ^ j) :
    ringStages factor (single j) i (2 ^ j + s) = -factor j (2 ^ j + s) := by
  induction i, hj using Nat.le_induction with
  | base =>
    have hstep := ringStages_odd factor (single j) hs 0
    have hzero := ringStages_single_block factor (le_refl j) 0 hs
    have hone := ringStages_single_block factor (le_refl j) 1 hs
    simp only [Nat.mul_zero, Nat.zero_add, Nat.mul_one] at hstep hzero hone
    rw [hstep, hzero, hone, Nat.sub_self, Nat.pow_zero, if_neg (by decide), if_pos rfl, one_mul, zero_sub]
  | succ i hji ih =>
    have hlt : 2 ^ j + s < 2 ^ i := by
      have hle : 2 ^ (j + 1) ≤ 2 ^ i := Nat.pow_le_pow_right Nat.two_pos hji
      rw [Nat.pow_succ'] at hle
      omega
    have hstep := ringStages_even factor (single j) hlt 0
    have hzero := ringStages_single_zero factor hji le_rfl hlt
    simp only [Nat.mul_zero, Nat.zero_add, Nat.mul_one] at hstep hzero
    rw [hstep, hzero, zero_mul, zero_add, ih]

end Single

end Ring

end Machinery
