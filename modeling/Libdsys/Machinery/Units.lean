import Mathlib.Data.List.Basic
import Mathlib.Algebra.Group.Nat.Defs
import Libdsys.Machinery.Ring

/-!
# Machinery/Units — blocks of units of one size

A block of cells is read and written unit by unit, `b` cells at a time.  A loop that combines the
units of two blocks in place leaves what is before and behind them alone.

* `unit_zipUnits` — the units of a combination.
* `unit_foldl_zipUnits` — and of one combination after another.
-/

namespace Machinery

variable {β : Type*}

/-- The `j`-th unit of `b` cells. -/
def unit (b j : ℕ) (l : List β) : List β := (l.drop (j * b)).take b

/-- The first `n` units of two blocks, combined. -/
def zipUnits (b : ℕ) (f : List β → List β → List β) : ℕ → List β → List β → List β
  | 0, _, _ => []
  | n + 1, y, z => f (y.take b) (z.take b) ++ zipUnits b f n (y.drop b) (z.drop b)

variable {b n j : ℕ} {f g : List β → List β → List β} {l y z pre post : List β}

theorem unit_zero (b : ℕ) (l : List β) : unit b 0 l = l.take b := by
  rw [unit, Nat.zero_mul, List.drop_zero]

theorem unit_succ (b j : ℕ) (l : List β) : unit b (j + 1) l = unit b j (l.drop b) := by
  rw [unit, unit, List.drop_drop, Nat.succ_mul, Nat.add_comm]

theorem length_unit (h : (j + 1) * b ≤ l.length) : (unit b j l).length = b := by
  rw [Nat.succ_mul] at h
  rw [unit, List.length_take, List.length_drop]
  omega

/-- The units of a block that goes on behind them. -/
theorem unit_append (h : (j + 1) * b ≤ l.length) (post : List β) :
    unit b j (l ++ post) = unit b j l := by
  rw [Nat.succ_mul] at h
  rw [unit, unit, List.drop_append_of_le_length (by omega),
    List.take_append_of_le_length (by rw [List.length_drop]; omega)]

/-- The first unit of a block, and what is behind it. -/
theorem exists_unit (h : l.length = (n + 1) * b) :
    ∃ x rest, l = x ++ rest ∧ x.length = b ∧ rest.length = n * b := by
  rw [Nat.succ_mul] at h
  refine ⟨l.take b, l.drop b, (List.take_append_drop b l).symm, ?_, ?_⟩
  · exact List.length_take_of_le (by omega)
  · rw [List.length_drop]
    omega

theorem succ_mul_le (h : j < n) (b : ℕ) : (j + 1) * b ≤ n * b := Nat.mul_le_mul_right b h

theorem zipUnits_succ {x x' : List β} (hx : x.length = b) (hx' : x'.length = b) :
    zipUnits b f (n + 1) (x ++ y) (x' ++ z) = f x x' ++ zipUnits b f n y z := by
  rw [zipUnits, List.take_left' hx, List.take_left' hx', List.drop_left' hx, List.drop_left' hx']

/-- A combination of units is a unit. -/
def KeepsUnits (b : ℕ) (f : List β → List β → List β) : Prop :=
  ∀ y z, y.length = b → z.length = b → (f y z).length = b

theorem length_zipUnits (hf : KeepsUnits b f) (hy : n * b ≤ y.length) (hz : n * b ≤ z.length) :
    (zipUnits b f n y z).length = n * b := by
  induction n generalizing y z with
  | zero => simp [zipUnits]
  | succ n ih =>
    rw [Nat.succ_mul] at hy hz ⊢
    rw [zipUnits, List.length_append, hf _ _ (List.length_take_of_le (by omega))
      (List.length_take_of_le (by omega)), ih (by rw [List.length_drop]; omega)
      (by rw [List.length_drop]; omega), Nat.add_comm]

/-- **The units of a combination.** -/
theorem unit_zipUnits (hf : KeepsUnits b f) (hy : n * b ≤ y.length) (hz : n * b ≤ z.length)
    (hj : j < n) : unit b j (zipUnits b f n y z) = f (unit b j y) (unit b j z) := by
  induction n generalizing y z j with
  | zero => exact absurd hj (Nat.not_lt_zero j)
  | succ n ih =>
    rw [Nat.succ_mul] at hy hz
    have hfirst := hf (y.take b) (z.take b) (List.length_take_of_le (by omega))
      (List.length_take_of_le (by omega))
    rcases j with _ | j
    · rw [unit_zero, unit_zero, unit_zero, zipUnits, List.take_left' hfirst]
    · rw [unit_succ, unit_succ, unit_succ, zipUnits, List.drop_left' hfirst]
      exact ih (by rw [List.length_drop]; omega) (by rw [List.length_drop]; omega)
        (Nat.lt_of_succ_lt_succ hj)

/-! ## One combination after another -/

/-- A loop in which no round fails: `e s` is what it holds of `s`, and `I` what every round
keeps. -/
theorem foldlM_eq_some {σ τ α : Type*} {f : τ → α → Option τ} {k : σ → α → σ} {e : σ → τ}
    {I : σ → Prop} {xs : List α}
    (hround : ∀ s, I s → ∀ x ∈ xs, f (e s) x = some (e (k s x)) ∧ I (k s x)) (s : σ) (hs : I s) :
    xs.foldlM f (e s) = some (e (xs.foldl k s)) := by
  induction xs generalizing s with
  | nil => rfl
  | cons x xs ih =>
    obtain ⟨hfirst, hkept⟩ := hround s hs x List.mem_cons_self
    rw [List.foldlM_cons, hfirst]
    exact ih (fun s hs x hx => hround s hs x (List.mem_cons_of_mem _ hx)) _ hkept

/-- Two folds at a time. -/
theorem foldl_pair {σ τ α : Type*} (f : σ → α → σ) (g : τ → α → τ) (xs : List α) (s : σ) (t : τ) :
    xs.foldl (fun x z => (f x.1 z, g x.2 z)) (s, t) = (xs.foldl f s, xs.foldl g t) := by
  induction xs generalizing s t with
  | nil => rfl
  | cons x xs ih => exact ih _ _

theorem length_foldl_zipUnits (hf : KeepsUnits b f) {zs : List (List β)}
    (hy : y.length = n * b) (hz : ∀ z ∈ zs, n * b ≤ z.length) :
    (zs.foldl (zipUnits b f n) y).length = n * b := by
  induction zs generalizing y with
  | nil => exact hy
  | cons z zs ih =>
    rw [List.forall_mem_cons] at hz
    exact ih (length_zipUnits hf hy.ge hz.1) hz.2

/-- **The units of many combinations.** -/
theorem unit_foldl_zipUnits (hf : KeepsUnits b f) {zs : List (List β)} (hy : y.length = n * b)
    (hz : ∀ z ∈ zs, n * b ≤ z.length) (hj : j < n) :
    unit b j (zs.foldl (zipUnits b f n) y) = (zs.map (unit b j)).foldl f (unit b j y) := by
  induction zs generalizing y with
  | nil => rfl
  | cons z zs ih =>
    rw [List.forall_mem_cons] at hz
    rw [List.foldl_cons, ih (length_zipUnits hf hy.ge hz.1) hz.2,
      unit_zipUnits hf hy.ge hz.1 hj, List.map_cons, List.foldl_cons]

/-- Copies of one unit. -/
theorem unit_flatten_replicate {x : List β} (hx : x.length = b) (hj : j < n) :
    unit b j (List.replicate n x).flatten = x := by
  induction n generalizing j with
  | zero => exact absurd hj (Nat.not_lt_zero j)
  | succ n ih =>
    rw [List.replicate_succ, List.flatten_cons]
    rcases j with _ | j
    · rw [unit_zero, List.take_left' hx]
    · rw [unit_succ, List.drop_left' hx]
      exact ih (Nat.lt_of_succ_lt_succ hj)

/-! ## Units in a larger block -/

/-- A read inside a block. -/
theorem exists_readAt {off : ℕ} (h : off + n ≤ l.length) :
    ∃ x, readAt l off n = some x ∧ x.length = n :=
  ⟨_, readAt_eq_some h, length_of_readAt (readAt_eq_some h)⟩

/-- A write inside a block. -/
theorem exists_writeAt {off : ℕ} {x : List β} (h : off + x.length ≤ l.length) :
    ∃ l', writeAt l off x = some l' ∧ l'.length = l.length :=
  ⟨_, writeAt_eq_some h, length_overlay h⟩

/-- A read of a piece. -/
theorem readAt_within (pre l post : List β) :
    readAt (pre ++ l ++ post) pre.length l.length = some l := by
  rw [readAt_eq_some (by simp), List.append_assoc, List.drop_left, List.take_left]

/-- A write over a piece. -/
theorem writeAt_within (pre l post : List β) {x : List β} (h : x.length = l.length) :
    writeAt (pre ++ l ++ post) pre.length x = some (pre ++ x ++ post) := by
  rw [writeAt_eq_some (by simp [h]), overlay, List.append_assoc pre l, List.take_left, h,
    ← List.append_assoc, ← List.length_append, List.drop_left]

end Machinery
