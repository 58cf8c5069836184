import Libdsys.Fft.Permute
import Libdsys.Machinery.Butterflies
import Libdsys.Programs.Arrays
import Libdsys.Programs.Values

/-!
# Programs/Fft — the Fourier transform of the examples

Every process has a coefficient.  In turn `j` it exchanges it with the process whose rank differs in
bit `j`, and one of both makes a sum of them and the other a difference.

* `reaches_turn` — a turn is a stage of butterflies.
* `fft_ends` — all runs come through the turns, and with the values of these stages.
-/

open Machinery

namespace Libdsys.Fft

variable {D : Type}

/-- `cos`, `sin` and `PI2`. -/
structure Trig (D : Type) where
  cos : D → D
  sin : D → D
  pi2 : D

/-! ## The program -/

section Program

variable (O : DoubleArith D) (T : Trig D) (C : Codec D Byte 8)

/-- `complex_mul`. -/
def complexMul (a b : Complex D) : Complex D where
  real := O.sub (O.mul a.real b.real) (O.mul a.img b.img)
  img := O.add (O.mul a.real b.img) (O.mul a.img b.real)

/-- `complex_pow`, the loop of which multiplies as `complex_mul` does. -/
def complexPow (a : Complex D) : ℕ → Complex D
  | 0 => ⟨O.ofInt 1, O.ofInt 0⟩
  | 1 => a
  | p + 2 => complexMul O (complexPow a (p + 1)) a

/-- `omega`. -/
def omegaRoot (i : ℕ) : Complex D :=
  let theta := O.div T.pi2 (O.ofInt i)
  ⟨T.cos theta, T.sin theta⟩

/-- `permute`. -/
def permute (nnodes rank : ℕ) (coeff : ℕ → Complex D) : ℕ → Complex D :=
  let nbits := Nat.log2 nnodes
  let node := (bitReverse (BitVec.ofNat 32 rank) nbits).toNat
  if node ≠ rank then Function.update coeff rank (coeff node) else coeff

/-- `bit_comp`. -/
def bitComp (num bit : ℕ) : ℕ := 1 <<< bit ^^^ num

/-- `partner[j]`. -/
def partner (nnodes ncoeff j rank : ℕ) : ℕ :=
  let cpnode := ncoeff / nnodes
  let iter := Nat.log2 ncoeff
  let pbit := Nat.log2 nnodes
  let idx := rank * cpnode
  let lsbit := iter - pbit
  bitComp idx j >>> lsbit

/-- `ntype`. -/
def ntype : Dtype := .cust 16 (by decide)

/-- `coeff`, once it is multiplied with a power of the root. -/
def twist (i step : ℕ) (coeff : Complex D) : Complex D :=
  complexMul O coeff (complexPow O (omegaRoot O T (1 <<< i)) step)

/-- The sum of what is received and what is there. -/
def complexAdd (recv coeff : Complex D) : Complex D :=
  ⟨O.add recv.real coeff.real, O.add recv.img coeff.img⟩

/-- Their difference. -/
def complexSub (recv coeff : Complex D) : Complex D :=
  ⟨O.sub recv.real coeff.real, O.sub recv.img coeff.img⟩

/-- The loop of `fft`: `left` turns are left, from the one with channels `j` on. -/
def turns (nnodes ncoeff rank : ℕ) :
    ℕ → ℕ → ℕ → Complex D → Complex D → Task (Complex D)
  | 0, _, _, coeff, _ => return coeff
  | left + 1, j, step, coeff, recv => do
    let i := j + 1
    let lesser := partner nnodes ncoeff j rank < rank
    let coeff := if lesser then twist O T i step coeff else coeff
    let step := if lesser then step + i else step
    Task.put j ((complexCodec C).encodeAll [coeff]) 1
    let bytes ← Task.get j ((complexCodec C).encodeAll [recv]) 1
    let recv := ((complexCodec C).decodeAll 1 bytes).headD recv
    let coeff := if lesser then complexSub O recv coeff else complexAdd O recv coeff
    turns nnodes ncoeff rank left (j + 1) step coeff recv

/-- `fft`, between the creation of the channels and their destruction. -/
def fft (nnodes ncoeff rank : ℕ) (coeff recv : Complex D) : Task (Complex D) :=
  turns O T C nnodes ncoeff rank (Nat.log2 ncoeff) 0 0 coeff recv

/-- The channels that `fft` makes. -/
def makes (size nproc : ℕ) (rank : ℤ) : List Make :=
  if size < nproc then []
  else if There nproc rank then
    (List.range (Nat.log2 nproc)).flatMap fun j =>
      [.src [(partner nproc nproc j rank.toNat : ℤ)] ntype .pipe,
        .sink [(partner nproc nproc j rank.toNat : ℤ)] ntype 2 .pipe]
  else []

/-- `main` up to the destruction of the channels in `fft`: the coefficient a process has there.
`stack` is what it finds in `recv`. -/
def main (size nproc : ℕ) (page : ℕ → Complex D) (stack : ℤ → Complex D) (rank : ℤ) :
    Task (Option (Complex D)) :=
  if size < nproc then return none
  else if There nproc rank then do
    let coeff := permute nproc rank.toNat page rank.toNat
    let coeff ← fft O T C nproc nproc rank.toNat coeff (stack rank)
    return some coeff
  else return none

end Program

/-! ## The partners -/

section Partners

variable {size n j : ℕ}

theorem partner_eq (n j rank : ℕ) : partner (2 ^ n) (2 ^ n) j rank = 2 ^ j ^^^ rank := by
  rw [partner, Nat.div_self (Nat.two_pow_pos n), Nat.mul_one, Nat.sub_self, Nat.shiftRight_zero,
    bitComp, Nat.one_shiftLeft]

/-- The partner of a process. -/
def across (j : ℕ) (rank : ℤ) : ℤ := (2 ^ j ^^^ rank.toNat : ℕ)

theorem across_across (j : ℕ) {rank : ℤ} (h : There size rank) : across j (across j rank) = rank := by
  obtain ⟨hle, -⟩ := h
  rw [across, across, Int.toNat_natCast, ← Nat.xor_assoc, Nat.xor_self, Nat.zero_xor]
  exact Int.toNat_of_nonneg (by omega)

theorem there_across (hj : j < n) {rank : ℤ} (h : There (2 ^ n) rank) :
    There (2 ^ n) (across j rank) := by
  obtain ⟨hle, hlt⟩ := h
  have hxor : 2 ^ j ^^^ rank.toNat < 2 ^ n :=
    Nat.xor_lt_two_pow (Nat.pow_lt_pow_right Nat.one_lt_two hj) (by omega)
  exact ⟨by rw [across]; omega, by rw [across]; exact_mod_cast hxor⟩

theorem across_inj {j k : ℕ} {rank : ℤ} (h : across j rank = across k rank) : j = k := by
  have hxor := congrArg (· ^^^ rank.toNat) (Int.ofNat.inj h)
  simp only [Nat.xor_assoc, Nat.xor_self, Nat.xor_zero] at hxor
  exact Nat.pow_right_injective le_rfl hxor

theorem across_ne (j : ℕ) (rank : ℤ) : across j rank ≠ rank := by
  intro heq
  have hxor := congrArg (fun q : ℤ => q.toNat ^^^ rank.toNat) heq
  simp only [across, Int.toNat_natCast, Nat.xor_assoc, Nat.xor_self, Nat.xor_zero] at hxor
  exact (Nat.two_pow_pos j).ne' hxor

theorem makes_there (hsize : 2 ^ n ≤ size) {rank : ℤ} (h : There (2 ^ n) rank) :
    makes size (2 ^ n) rank = (List.range n).flatMap fun j =>
      [.src [across j rank] ntype .pipe, .sink [across j rank] ntype 2 .pipe] := by
  rw [makes, if_neg (Nat.not_lt.mpr hsize), if_pos h, Nat.log2_two_pow]
  simp only [partner_eq, across]

theorem makes_else {rank : ℤ} (h : ¬ (2 ^ n ≤ size ∧ There (2 ^ n) rank)) :
    makes size (2 ^ n) rank = [] := by
  rw [makes]
  by_cases hsize : size < 2 ^ n
  · rw [if_pos hsize]
  · rw [if_neg hsize, if_neg fun hthere => h ⟨Nat.not_lt.mp hsize, hthere⟩]

theorem mem_makes {rank : ℤ} {m : Make} (hm : m ∈ makes size (2 ^ n) rank) :
    There (2 ^ n) rank ∧ ∃ j < n,
      m = .src [across j rank] ntype .pipe ∨ m = .sink [across j rank] ntype 2 .pipe := by
  by_cases h : 2 ^ n ≤ size ∧ There (2 ^ n) rank
  · rw [makes_there h.1 h.2] at hm
    obtain ⟨j, hj, hm⟩ := List.mem_flatMap.mp hm
    simp only [List.mem_cons, List.not_mem_nil, or_false] at hm
    exact ⟨h.2, j, List.mem_range.mp hj, hm⟩
  · rw [makes_else h] at hm
    cases hm

theorem good_makes (size n : ℕ) (rank : ℤ) : ∀ m ∈ makes size (2 ^ n) rank, m.Good rank := by
  intro m hm
  obtain ⟨-, j, -, hm⟩ := mem_makes hm
  have hne := across_ne j rank
  obtain rfl | rfl := hm <;>
    exact ⟨List.nodup_singleton _, by simpa [Make.peers] using hne.symm, by simp [Make.Copies]⟩

theorem dtype_makes (size n : ℕ) (rank : ℤ) : ∀ m ∈ makes size (2 ^ n) rank, m.dtype = ntype := by
  intro m hm
  obtain ⟨-, j, -, hm⟩ := mem_makes hm
  obtain rfl | rfl := hm <;> rfl

/-- The sources and the sinks have the numbers of their turns. -/
theorem filterMap_makes {β : Type} (hsize : 2 ^ n ≤ size) {rank : ℤ} (h : There (2 ^ n) rank)
    (f : Make → Option β) (g : ℤ → β)
    (hf : ∀ q, [Make.src [q] ntype .pipe, .sink [q] ntype 2 .pipe].filterMap f = [g q]) :
    (makes size (2 ^ n) rank).filterMap f = (List.range n).map fun j => g (across j rank) := by
  rw [makes_there hsize h, List.filterMap_flatMap, List.map_eq_flatMap]
  simp only [hf]

/-- No earlier channel has the same partner. -/
theorem ordinal_across (ls : List ℕ) {q : ℤ} {rank : ℤ} (hls : ∀ k ∈ ls, across k rank ≠ q) :
    ordinal (ls.map fun k => [across k rank]) q = 0 := by
  rw [ordinal, List.countP_eq_zero]
  intro l hl
  obtain ⟨k, hk, rfl⟩ := List.mem_map.mp hl
  simpa using (hls k hk).symm

end Partners

/-! ## The turns -/

section Turns

variable {O : DoubleArith D} {T : Trig D} {C : Codec D Byte 8} {A : Arith} {R : Type} {size n : ℕ}
  {page : ℕ → Complex D}

/-- `step` in turn `i`. -/
def stepTo : ℕ → ℕ → ℕ
  | 0, _ => 0
  | i + 1, r => if 2 ^ i ^^^ r < r then stepTo i r + (i + 1) else stepTo i r

variable (O T n page) in
/-- **What a process has after `i` turns**: a stage of butterflies. -/
def after (i r : ℕ) : Complex D :=
  stages (complexAdd O) (complexSub O) (fun i r => twist O T (i + 1) (stepTo i r))
    (fun r => page (reversed n r)) i r

variable (O T n page) in
/-- What a process sends in turn `j`. -/
def sent (j r : ℕ) : Complex D :=
  if 2 ^ j ^^^ r < r then twist O T (j + 1) (stepTo j r) (after O T n page j r)
  else after O T n page j r

variable (O T n page) in
/-- What it makes of it and of what it receives. -/
def joined (j r : ℕ) (recv : Complex D) : Complex D :=
  if 2 ^ j ^^^ r < r then complexSub O recv (sent O T n page j r)
  else complexAdd O recv (sent O T n page j r)

theorem joined_sent (j r : ℕ) :
    joined O T n page j r (sent O T n page j (2 ^ j ^^^ r)) = after O T n page (j + 1) r := by
  have hback : 2 ^ j ^^^ (2 ^ j ^^^ r) = r := by rw [← Nat.xor_assoc, Nat.xor_self, Nat.zero_xor]
  have hne : 2 ^ j ^^^ r ≠ r := fun heq => by
    have hxor := congrArg (· ^^^ r) heq
    simp only [Nat.xor_assoc, Nat.xor_self, Nat.xor_zero] at hxor
    exact (Nat.two_pow_pos j).ne' hxor
  rw [joined, sent, sent, hback]
  by_cases hlt : 2 ^ j ^^^ r < r
  · rw [if_pos hlt, if_neg (Nat.lt_asymm hlt), if_pos hlt]
    simp only [after, stages, if_pos hlt]
  · have hgt : r < 2 ^ j ^^^ r := lt_of_le_of_ne (Nat.not_lt.mp hlt) hne.symm
    rw [if_neg hlt, if_pos hgt, if_neg hlt]
    simp only [after, stages, if_neg hlt]

theorem permute_eq (hn : n < 31) {r : ℕ} (hr : r < 2 ^ n) (page : ℕ → Complex D) :
    permute (2 ^ n) r page r = page (reversed n r) := by
  have hword : r < 2 ^ 32 := hr.trans (Nat.pow_lt_pow_right Nat.one_lt_two (by omega))
  have hnode : (bitReverse (BitVec.ofNat 32 r) (Nat.log2 (2 ^ n) : ℕ)).toNat = reversed n r := by
    rw [Nat.log2_two_pow, bitReverse, Int.toNat_natCast, toNat_shiftOver (by omega),
      BitVec.toNat_ofNat, Nat.mod_eq_of_lt hword]
  rw [permute, hnode]
  by_cases hne : reversed n r = r
  · rw [if_neg (not_not.mpr hne), hne]
  · rw [if_pos hne, Function.update_self]

/-- **A turn**: all partners exchange their coefficients. -/
theorem reaches_turn (hsize : 2 ^ n ≤ size) (left : ℕ) {j : ℕ} (hj : j < n)
    (k : ℤ → Complex D → Task R) (recv : ℤ → Complex D) (loc : ℤ → Task R)
    (hloc : ∀ p, There (2 ^ n) p →
      loc p = (turns O T C (2 ^ n) (2 ^ n) p.toNat (left + 1) j (stepTo j p.toNat)
        (after O T n page j p.toNat) (recv p)).bind (k p)) :
    ∃ recv' : ℤ → Complex D,
      Reaches ((wired (makes size (2 ^ n))).exchanges A fun _ => Task.program).step
        ⟨loc, fun _ => []⟩
        ⟨fun p => if There (2 ^ n) p then
          (turns O T C (2 ^ n) (2 ^ n) p.toNat left (j + 1) (stepTo (j + 1) p.toNat)
            (after O T n page (j + 1) p.toNat) (recv' p)).bind (k p)
          else loc p, fun _ => []⟩ := by
  have hone : Counts ntype 1 := counts_of_lt (by decide) le_rfl (by decide)
  have htwo : Counts ntype 2 := counts_of_lt (by decide) (by decide) (by decide)
  have hthere {p : ℤ} (hp : p ∈ ranks (2 ^ n)) := mem_ranks.mp hp
  have hacross {p : ℤ} (hp : p ∈ ranks (2 ^ n)) :
      across j p ∈ ranks (2 ^ n) ∧ across j (across j p) = p :=
    ⟨mem_ranks.mpr (there_across hj (hthere hp)), across_across j (hthere hp)⟩
  have hord {p q : ℤ} (hq : ∀ k < j, across k p ≠ q) :
      ordinal (((List.range n).take j).map fun k => [across k p]) q = 0 :=
    ordinal_across _ fun k hk => by
      rw [List.take_range, List.mem_range] at hk
      exact hq k (by omega)
  have hshift := reaches_shift (A := A) (C := complexCodec C) (good_makes size n) hone
    (nodup_ranks (2 ^ n)) htwo (by decide) (across j) (across j) (fun p hp => hacross hp)
    (fun p hp => hacross hp) (fun _ => j) (fun _ => j)
    (fun p hp => by
      rw [filterMap_makes hsize (hthere hp) Make.sinkChan (fun q => ⟨.pipe, [q], ntype, 2⟩)
        fun q => rfl]
      simp [hj])
    (fun p hp => by
      rw [filterMap_makes hsize (hthere hp) Make.srcOf (fun q => ([q], ntype, .pipe)) fun q => rfl]
      simp [hj])
    (fun p hp => by
      rw [filterMap_makes hsize (hthere hp) Make.srcOf (fun q => ([q], ntype, .pipe)) fun q => rfl,
        filterMap_makes hsize (hthere (hacross hp).1) Make.consOf (fun q => [q]) fun q => rfl,
        ← List.map_take, ← List.map_take, List.map_map]
      refine (hord fun k hk heq => hk.ne (across_inj heq)).trans (hord fun k hk heq => ?_).symm
      exact hk.ne (across_inj (heq.trans (hacross hp).2.symm)))
    (fun p => [sent O T n page j p.toNat]) (fun p => [recv p]) (fun _ _ => rfl) (fun _ _ => rfl)
    (fun p xs => (turns O T C (2 ^ n) (2 ^ n) p.toNat left (j + 1) (stepTo (j + 1) p.toNat)
      (joined O T n page j p.toNat (xs.headD (recv p))) (xs.headD (recv p))).bind (k p)) loc
    (fun p hp => by
      rw [hloc p (hthere hp)]
      simp only [turns, partner_eq]
      rfl)
  refine ⟨fun p => sent O T n page j (across j p).toNat, ?_⟩
  convert hshift using 2
  funext p
  have hjoined : joined O T n page j p.toNat (sent O T n page j (across j p).toNat) =
      after O T n page (j + 1) p.toNat := joined_sent j p.toNat
  refine if_congr mem_ranks.symm ?_ rfl
  rw [List.headD_cons, hjoined]

variable (page) in
/-- **All turns.** -/
theorem reaches_turns (hsize : 2 ^ n ≤ size) (k : ℤ → Complex D → Task R) (left j : ℕ)
    (hleft : j + left ≤ n) (recv : ℤ → Complex D) (loc : ℤ → Task R)
    (hloc : ∀ p, There (2 ^ n) p →
      loc p = (turns O T C (2 ^ n) (2 ^ n) p.toNat left j (stepTo j p.toNat)
        (after O T n page j p.toNat) (recv p)).bind (k p)) :
    Reaches ((wired (makes size (2 ^ n))).exchanges A fun _ => Task.program).step
      ⟨loc, fun _ => []⟩
      ⟨fun p => if There (2 ^ n) p then k p (after O T n page (j + left) p.toNat) else loc p,
        fun _ => []⟩ := by
  induction left generalizing j recv loc with
  | zero =>
    have hsame : (fun p => if There (2 ^ n) p then k p (after O T n page (j + 0) p.toNat)
        else loc p) = loc := by
      funext p
      split
      · next hp => exact (hloc p hp).symm
      · rfl
    rw [hsame]
    exact .refl _
  | succ left ih =>
    obtain ⟨recv', hturn⟩ := reaches_turn (A := A) hsize left (by omega) k recv loc hloc
    have hrest := ih (j + 1) (by omega) recv' (fun p => if There (2 ^ n) p then _ else loc p)
      fun p hp => if_pos hp
    refine hturn.trans ?_
    convert hrest using 2
    funext p
    have hcount : j + 1 + left = j + (left + 1) := by omega
    rw [hcount]
    split <;> rfl

/-- **All runs of the transform come to the destruction of the channels**, and the processes have
the values of all stages there. -/
theorem fft_ends (O : DoubleArith D) (T : Trig D) (C : Codec D Byte 8) (A : Arith)
    (fresh : Fresh ℤ) (size : ℕ) (hn : n < 31) (page : ℕ → Complex D) (stack : ℤ → Complex D) :
    (wired (makes size (2 ^ n))).AllEnd A (fun _ => Task.program) fresh
      (main O T C size (2 ^ n) page stack) fun rank =>
        .done (if 2 ^ n ≤ size ∧ There (2 ^ n) rank then some (after O T n page n rank.toNat)
          else none) := by
  have hgood := good_makes size n
  have helse {rank : ℤ} (h : ¬ (2 ^ n ≤ size ∧ There (2 ^ n) rank)) :
      main O T C size (2 ^ n) page stack rank = .done none := by
    rw [main]
    by_cases hsize : size < 2 ^ n
    · rw [if_pos hsize]
      rfl
    · rw [if_neg hsize, if_neg fun hthere => h ⟨Nat.not_lt.mp hsize, hthere⟩]
      rfl
  have hreach : Reaches ((wired (makes size (2 ^ n))).exchanges A fun _ => Task.program).step
      ⟨main O T C size (2 ^ n) page stack, fun _ => []⟩
      ⟨fun rank => .done (if 2 ^ n ≤ size ∧ There (2 ^ n) rank then
        some (after O T n page n rank.toNat) else none), fun _ => []⟩ := by
    by_cases hsize : 2 ^ n ≤ size
    · have hturns := reaches_turns (A := A) (O := O) (T := T) (C := C) page hsize
        (fun _ coeff => .done (some coeff)) n 0 (Nat.zero_add n).le stack
        (main O T C size (2 ^ n) page stack) fun p hp => by
          have hlt : p.toNat < 2 ^ n := by
            obtain ⟨hle, hlt⟩ := hp
            have hcast : ((2 ^ n : ℕ) : ℤ) = 2 ^ n := by push_cast; rfl
            omega
          rw [main, if_neg (Nat.not_lt.mpr hsize), if_pos hp]
          simp only [fft, Nat.log2_two_pow, permute_eq hn hlt]
          rfl
      convert hturns using 2
      funext p
      rw [Nat.zero_add]
      by_cases hp : There (2 ^ n) p
      · rw [if_pos ⟨hsize, hp⟩, if_pos hp]
      · rw [if_neg fun h => hp h.2, if_neg hp, helse fun h => hp h.2]
    · have hsame : main O T C size (2 ^ n) page stack = fun rank =>
          .done (if 2 ^ n ≤ size ∧ There (2 ^ n) rank then some (after O T n page n rank.toNat)
            else none) := by
        funext rank
        rw [helse fun h => hsize h.1, if_neg fun h => hsize h.1]
      rw [hsame]
      exact .refl _
  exact Conf.allEnd_of_exchanges fresh
    (ordered_wired hgood (typed_of_eq (dtype_makes size n))) (oneToOne_wired hgood)
    (apart_wired hgood) hreach fun q => rfl

theorem fft_ends_three :
    (wired (makes 8 (2 ^ 3))).AllEnd noArith (fun _ => Task.program)
      ⟨fun _ _ _ _ => 0, fun _ _ _ => 0⟩
      (main wordArith ⟨id, id, 1⟩ wordCodec 8 (2 ^ 3) (fun u => ⟨BitVec.ofNat 64 u, 0⟩)
        fun _ => ⟨0, 0⟩) fun rank =>
        .done (if 2 ^ 3 ≤ 8 ∧ There (2 ^ 3) rank then some (after wordArith ⟨id, id, 1⟩ 3
          (fun u => ⟨BitVec.ofNat 64 u, 0⟩) 3 rank.toNat) else none) :=
  fft_ends wordArith ⟨id, id, 1⟩ wordCodec noArith ⟨fun _ _ _ _ => 0, fun _ _ _ => 0⟩ 8 (by decide)
    (fun u => ⟨BitVec.ofNat 64 u, 0⟩) fun _ => ⟨0, 0⟩

end Turns

end Libdsys.Fft
