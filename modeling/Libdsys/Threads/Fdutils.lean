import Libdsys.Machinery.Transfer
import Libdsys.Threads.Request

/-!
# Threads/Fdutils — the loops that read and write data

`__bc_read_data` and `__bc_write_data` subtract what `recv` and `send` return from what remains, and
add it to the pointer, also where it is -1.

* `safe_results_iff` — a loop is safe exactly when its results add up to the block before one of
  them is an error.
-/

open Machinery Transfer

namespace Libdsys

variable {d : DataModel}

/-- `__bc_read_data`. -/
def bcReadData (d : DataModel) : Transfer → ℤ → Option Transfer := next (2 ^ (8 * d.word)) 1

/-- `__bc_write_data`. -/
def bcWriteData (d : DataModel) : Transfer → ℤ → Option Transfer := next (2 ^ (8 * d.word)) 1

/-- The two loops. -/
inductive FdLoop
  | read
  | write
deriving Repr, DecidableEq

def FdLoop.step (f : FdLoop) (d : DataModel) : Transfer → ℤ → Option Transfer :=
  match f with
  | read => bcReadData d
  | write => bcWriteData d

/-- A block of memory: it is not at `NULL`, and where it ends is an address. -/
structure Block (d : DataModel) where
  addr : ℕ
  bytes : ℕ
  addr_pos : 0 < addr
  bytes_pos : 0 < bytes
  fits : addr + bytes < 2 ^ (8 * d.word)

/-- Where a loop over a block begins. -/
def Block.start (b : Block d) : Transfer := ⟨0, b.bytes⟩

/-- What the system call may return, call after call: -1, or 0 at the end of a stream, or up to what
was asked for. -/
structure FdResults (f : FdLoop) (b : Block d) where
  res : ℕ → ℤ
  legal : ∀ k t, stands (f.step d) b.start (results res k) = some t →
    -1 ≤ res k ∧ res k ≤ t.remain ∧ (res k = 0 → f = .read)

/-- The bytes transferred by the first `k` calls. -/
def transferred (res : ℕ → ℤ) (k : ℕ) : ℤ := ((results res k).map fun r => max r 0).sum

/-- **A loop survives its results**: each call asks for cells of the block, no more are transferred
than it has, and it returns after an error or the end of the stream. -/
structure SafeResults (step : Transfer → ℤ → Option Transfer) (b : Block d) (res : ℕ → ℤ) :
    Prop where
  inside : ∀ k t, stands step b.start (results res k) = some t →
    0 ≤ t.off ∧ t.off + t.remain ≤ b.bytes
  total : ∀ k t, stands step b.start (results res k) = some t → transferred res (k + 1) ≤ b.bytes
  returns : (∃ k t, stands step b.start (results res k) = some t ∧ res k ≤ 0) →
    ∃ k, stands step b.start (results res k) = none

/-! ## Sums of results -/

theorem transferred_succ (res : ℕ → ℤ) (k : ℕ) :
    transferred res (k + 1) = transferred res k + max (res k) 0 := by
  rw [transferred, results_succ, List.map_append, List.sum_append, transferred]
  exact congrArg _ List.sum_singleton

theorem transferred_eq {res : ℕ → ℤ} {k : ℕ} (h : ∀ i < k, 0 ≤ res i) :
    transferred res k = (results res k).sum := by
  induction k with
  | zero => rfl
  | succ k ih =>
    rw [transferred_succ, sum_results_succ, ih fun i hi => h i (by omega),
      max_eq_left (h k (Nat.lt_succ_self k))]

theorem sum_results_le (res : ℕ → ℤ) (k : ℕ) : (results res k).sum ≤ transferred res k := by
  induction k with
  | zero => exact le_rfl
  | succ k ih =>
    rw [transferred_succ, sum_results_succ]
    exact add_le_add ih (le_max_left _ _)

/-- An error is transferred as nothing. -/
theorem nonneg_of_transferred {res : ℕ → ℤ} {k : ℕ} (h : transferred res k ≤ (results res k).sum) :
    ∀ i < k, 0 ≤ res i := by
  induction k with
  | zero => exact fun i hi => absurd hi (Nat.not_lt_zero i)
  | succ k ih =>
    rw [transferred_succ, sum_results_succ] at h
    have hle := sum_results_le res k
    intro i hi
    rcases Nat.lt_succ_iff_lt_or_eq.mp hi with hlt | rfl
    · exact ih (by omega) i hlt
    · omega

theorem sum_results_mono {res : ℕ → ℤ} {j k : ℕ} (hle : j ≤ k) (h : ∀ i < k, 0 ≤ res i) :
    (results res j).sum ≤ (results res k).sum := by
  induction k, hle using Nat.le_induction with
  | base => exact le_rfl
  | succ k _ ih =>
    rw [sum_results_succ]
    have hnonneg := h k (Nat.lt_succ_self k)
    have hmono := ih fun i hi => h i (by omega)
    omega

/-! ## The loops -/

theorem FdLoop.step_eq (f : FdLoop) (d : DataModel) : f.step d = next (2 ^ (8 * d.word)) 1 := by
  cases f <;> rfl

variable {f : FdLoop} {b : Block d} {res : ℕ → ℤ} {k : ℕ} {t : Transfer}

theorem Block.bytes_lt (b : Block d) : b.bytes + 1 < 2 ^ (8 * d.word) := by
  have haddr := b.addr_pos
  have hfits := b.fits
  omega

/-- Where a loop stands. -/
theorem stands_block (h : stands (f.step d) b.start (results res k) = some t) :
    t.off = (results res k).sum ∧ 0 < t.remain ∧
      (t.remain : ℤ) = (b.bytes - (results res k).sum) % (2 ^ (8 * d.word) : ℕ) := by
  rw [f.step_eq] at h
  have hlt : b.start.remain < 2 ^ (8 * d.word) := Nat.lt_of_succ_lt b.bytes_lt
  obtain ⟨hoff, hremain⟩ := offset_of_stands hlt h
  refine ⟨?_, remain_pos b.bytes_pos h, hremain⟩
  rw [hoff, Int.mul_one]
  exact Int.zero_add _

/-- What remains, as long as no more was transferred than the block has. -/
theorem remain_of_le (h : stands (f.step d) b.start (results res k) = some t)
    (hnonneg : 0 ≤ (results res k).sum) (hle : (results res k).sum ≤ b.bytes) :
    (t.remain : ℤ) = b.bytes - (results res k).sum := by
  have hlt := b.bytes_lt
  rw [(stands_block h).2.2, Int.emod_eq_of_lt (by omega) (by omega)]

/-- A loop whose results add up to the block has returned. -/
theorem returned_of_sum (h : (results res k).sum = b.bytes) :
    stands (f.step d) b.start (results res k) = none := by
  by_contra hne
  obtain ⟨t, ht⟩ := Option.ne_none_iff_exists'.mp hne
  have hremain := remain_of_le ht (by omega) (by omega)
  have hpos := (stands_block ht).2.1
  omega

/-- A loop that stands in the block and returns has transferred it. -/
theorem sum_of_returned (r : FdResults f b)
    (hstands : stands (f.step d) b.start (results r.res k) = some t) (hoff : 0 ≤ t.off)
    (hin : t.off + t.remain ≤ b.bytes)
    (hreturns : stands (f.step d) b.start (results r.res (k + 1)) = none) :
    (results r.res (k + 1)).sum = b.bytes := by
  obtain ⟨hge, hle, -⟩ := r.legal k t hstands
  obtain ⟨hoff', -⟩ := stands_block hstands
  have hlt := b.bytes_lt
  have hremain := remain_of_le hstands (by omega) (by omega)
  rw [stands_results_succ, hstands, Option.bind_some, f.step_eq, next] at hreturns
  rw [Int.emod_eq_of_lt (by omega) (by omega)] at hreturns
  rw [sum_results_succ]
  split at hreturns
  · omega
  · cases hreturns

/-- A loop that is given nothing but pieces returns. -/
theorem exists_returned (r : FdResults f b)
    (hinside : ∀ k t, stands (f.step d) b.start (results r.res k) = some t →
      0 ≤ t.off ∧ t.off + t.remain ≤ b.bytes)
    (hpieces : ∀ k t, stands (f.step d) b.start (results r.res k) = some t → 0 < r.res k) :
    ∃ k, stands (f.step d) b.start (results r.res k) = none := by
  by_contra hnone
  have hsome : ∀ k, ∃ t, stands (f.step d) b.start (results r.res k) = some t := fun k =>
    Option.ne_none_iff_exists'.mp fun hk => hnone ⟨k, hk⟩
  have hsum : ∀ k : ℕ, (k : ℤ) ≤ (results r.res k).sum := by
    intro k
    induction k with
    | zero => exact le_rfl
    | succ k ih =>
      obtain ⟨t, ht⟩ := hsome k
      have hpos := hpieces k t ht
      rw [sum_results_succ]
      omega
  obtain ⟨t, ht⟩ := hsome b.bytes
  have hin := (hinside _ t ht).2
  obtain ⟨hoff, hpos, -⟩ := stands_block ht
  have hge := hsum b.bytes
  omega

/-- A loop that is safe is given the block before an error: an error is transferred as nothing, so
that more than the block would be. -/
theorem SafeResults.exists_sum {r : FdResults f b} (h : SafeResults (f.step d) b r.res) :
    ∃ k, (∀ i < k, 0 ≤ r.res i) ∧ (results r.res k).sum = b.bytes := by
  have hreturns : ∃ k, stands (f.step d) b.start (results r.res k) = none := by
    by_contra hnone
    refine hnone (exists_returned r h.inside fun k t ht => ?_)
    by_contra hle
    exact hnone (h.returns ⟨k, t, ht, not_lt.mp hle⟩)
  -- the first time that it has returned
  obtain ⟨k, hk, hfirst⟩ := Nat.findX hreturns
  rcases k with _ | k
  · cases hk
  obtain ⟨t, ht⟩ := Option.ne_none_iff_exists'.mp (hfirst k (Nat.lt_succ_self k))
  obtain ⟨hoff, hin⟩ := h.inside k t ht
  have hsum := sum_of_returned r ht hoff hin hk
  exact ⟨k + 1, nonneg_of_transferred (hsum ▸ h.total k t ht), hsum⟩

/-- A loop that is given the block before an error returns then. -/
theorem safeResults_of_sum (hnonneg : ∀ i < k, 0 ≤ res i) (hsum : (results res k).sum = b.bytes) :
    SafeResults (f.step d) b res := by
  have hlt : ∀ j t, stands (f.step d) b.start (results res j) = some t → j < k := by
    intro j t ht
    by_contra hge
    rw [stands_none_of_le (not_lt.mp hge) (returned_of_sum hsum)] at ht
    cases ht
  refine ⟨fun j t ht => ?_, fun j t ht => ?_, fun _ => ⟨k, returned_of_sum hsum⟩⟩
  · have hj := hlt j t ht
    have hzero : 0 ≤ (results res j).sum :=
      sum_results_mono (Nat.zero_le j) fun i hi => hnonneg i (by omega)
    have hle := sum_results_mono hj.le hnonneg
    have hremain := remain_of_le ht hzero (by omega)
    have hoff := (stands_block ht).1
    omega
  · have hj := hlt j t ht
    rw [transferred_eq fun i hi => hnonneg i (by omega), ← hsum]
    exact sum_results_mono hj hnonneg

/-- **A loop over a block is safe exactly when** its results add up to the block before one of them
is an error. -/
theorem safe_results_iff (f : FdLoop) (b : Block d) (r : FdResults f b) :
    SafeResults (f.step d) b r.res ↔
      ∃ k, (∀ i < k, 0 ≤ r.res i) ∧ (results r.res k).sum = b.bytes := by
  constructor
  · exact SafeResults.exists_sum
  · rintro ⟨k, hnonneg, hsum⟩
    exact safeResults_of_sum hnonneg hsum

/-- A block of one byte. -/
def oneByte : Block .lp64 := ⟨4096, 1, by decide, by decide, by decide⟩

/-- Nothing but errors. -/
def onlyErrors (f : FdLoop) (b : Block d) : FdResults f b :=
  ⟨fun _ => -1, fun _ _ _ => ⟨le_rfl, by omega, fun h => absurd h (by decide)⟩⟩

/-- After an error the loop asks for two bytes, from before the block on. -/
theorem asked_outside :
    stands (FdLoop.read.step .lp64) oneByte.start (results (onlyErrors .read oneByte).res 1) =
      some ⟨-1, 2⟩ ∧
    ¬SafeResults (FdLoop.read.step .lp64) oneByte (onlyErrors .read oneByte).res :=
  ⟨by decide, fun h => absurd (h.inside 1 ⟨-1, 2⟩ (by decide)).1 (by decide)⟩

end Libdsys
