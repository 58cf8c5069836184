import Mathlib.Data.List.Sort
import Mathlib.Data.List.Perm.Basic
import Mathlib.Tactic.Ring

/-!
# Machinery/MergeSplit — sorting by odd and even phases

A row of processes holds `m` elements each.  In a phase every second pair of neighbours merges its
elements and splits them: the left one keeps the `m` smaller ones.  The pairs alternate.

* `upTo_phase` / `upTo_split` — a phase changes what is left of a boundary only where a pair lies
  across it.
* `sorted_phases` — after as many phases as there are processes, the row is sorted.
* `unsorted_phases` — after fewer phases it need not be.
-/

namespace Machinery

variable {α : Type*}

/-- What the first `p` processes hold. -/
def upTo (es : ℕ → List α) (p : ℕ) : List α := (List.range p).flatMap es

@[simp] theorem upTo_zero (es : ℕ → List α) : upTo es 0 = [] := rfl

theorem upTo_succ (es : ℕ → List α) (p : ℕ) : upTo es (p + 1) = upTo es p ++ es p := by
  rw [upTo, List.range_succ, List.flatMap_append, List.flatMap_singleton]
  rfl

theorem length_upTo {es : ℕ → List α} {m p : ℕ} (h : ∀ i < p, (es i).length = m) :
    (upTo es p).length = p * m := by
  induction p with
  | zero => rw [upTo_zero, List.length_nil, Nat.zero_mul]
  | succ p ih =>
    rw [upTo_succ, List.length_append, ih fun i hi => h i (by omega), h p (by omega),
      Nat.succ_mul]

theorem upTo_congr {es es' : ℕ → List α} {p : ℕ} (h : ∀ i < p, es i = es' i) :
    upTo es p = upTo es' p :=
  List.flatMap_congr fun i hi => h i (List.mem_range.mp hi)

/-- What is left of a boundary is left of those behind it. -/
theorem isPrefix_upTo (es : ℕ → List α) {p q : ℕ} (h : p ≤ q) : upTo es p <+: upTo es q := by
  induction q, h using Nat.le_induction with
  | base => exact List.prefix_rfl
  | succ q _ ih =>
    rw [upTo_succ]
    exact ih.trans (List.prefix_append _ _)

/-! ## A merge -/

/-- The first `k` elements of two lists merged: `r` says where the first one goes first. -/
def picks (r : α → α → Bool) : ℕ → List α → List α → Option (List α)
  | 0, _, _ => some []
  | k + 1, x :: xs, y :: ys =>
    if r x y then (picks r k xs (y :: ys)).map (x :: ·) else (picks r k (x :: xs) ys).map (y :: ·)
  | _, _, _ => none

section Picks

variable {le : α → α → Prop} [DecidableRel le] [IsTrans α le] [Std.Total le] [Std.Antisymm le]
  {xs ys l l' : List α} {x : α}

/-- Lists of the same elements are sorted alike. -/
theorem insertionSort_congr (h : l.Perm l') : l.insertionSort le = l'.insertionSort le :=
  (((List.perm_insertionSort le l).trans h).trans
    (List.perm_insertionSort le l').symm).eq_of_pairwise' (List.pairwise_insertionSort le l)
    (List.pairwise_insertionSort le l')

variable (le) in
/-- **What is picked is what sorting puts first.** -/
theorem picks_eq {r : α → α → Bool} (htrue : ∀ x y, r x y = true → le x y)
    (hfalse : ∀ x y, r x y = false → le y x) {k : ℕ} (zs zs' : List α)
    (hxs : xs.Pairwise le) (hys : ys.Pairwise le) (hkx : k ≤ xs.length) (hky : k ≤ ys.length) :
    picks r k (xs ++ zs) (ys ++ zs') = some (((xs ++ ys).insertionSort le).take k) := by
  induction k generalizing xs ys with
  | zero => rfl
  | succ k ih =>
    obtain ⟨x, xs, rfl⟩ := List.exists_cons_of_length_pos (Nat.zero_lt_of_lt hkx)
    obtain ⟨y, ys, rfl⟩ := List.exists_cons_of_length_pos (Nat.zero_lt_of_lt hky)
    rw [List.length_cons, Nat.succ_le_succ_iff] at hkx hky
    obtain ⟨hx, hxs'⟩ := List.pairwise_cons.mp hxs
    obtain ⟨hy, hys'⟩ := List.pairwise_cons.mp hys
    rw [List.cons_append, List.cons_append, picks]
    cases hr : r x y with
    | true =>
      have hmin : ∀ z ∈ xs ++ y :: ys, le x z := by
        intro z hz
        obtain hz | hz := List.mem_append.mp hz
        · exact hx z hz
        · obtain rfl | hz := List.mem_cons.mp hz
          · exact htrue x z hr
          · exact trans_of le (htrue x y hr) (hy z hz)
      have hrest : picks r k (xs ++ zs) (y :: ys ++ zs') =
          some (((xs ++ y :: ys).insertionSort le).take k) :=
        ih hxs' hys hkx (by rw [List.length_cons]; omega)
      rw [if_pos rfl, List.cons_append, List.insertionSort_cons_of_forall_rel le hmin,
        List.take_succ_cons, ← List.cons_append, hrest, Option.map_some]
    | false =>
      have hmin : ∀ z ∈ x :: xs ++ ys, le y z := by
        intro z hz
        obtain hz | hz := List.mem_append.mp hz
        · obtain rfl | hz := List.mem_cons.mp hz
          · exact hfalse z y hr
          · exact trans_of le (hfalse x y hr) (hx z hz)
        · exact hy z hz
      have hperm : (x :: xs ++ y :: ys).Perm (y :: (x :: xs ++ ys)) := List.perm_middle
      have hrest : picks r k (x :: xs ++ zs) (ys ++ zs') =
          some (((x :: xs ++ ys).insertionSort le).take k) :=
        ih hxs hys' (by rw [List.length_cons]; omega) hky
      rw [if_neg Bool.false_ne_true, insertionSort_congr hperm,
        List.insertionSort_cons_of_forall_rel le hmin, List.take_succ_cons, ← List.cons_append,
        hrest, Option.map_some]

end Picks

/-- To sort from the other end is to sort, and turn round. -/
theorem reverse_insertionSort [LinearOrder α] (l : List α) :
    (l.insertionSort (· ≤ ·)).reverse = l.insertionSort (· ≥ ·) :=
  ((List.reverse_perm _).trans ((List.perm_insertionSort _ l).trans
    (List.perm_insertionSort _ l).symm)).eq_of_pairwise'
    (List.pairwise_reverse.mpr (List.pairwise_insertionSort _ l))
    (List.pairwise_insertionSort _ l)

/-! ## A phase -/

variable [LinearOrder α]

/-- **Two lists are merged and split.** -/
structure Splits (m : ℕ) (xs ys lo hi : List α) : Prop where
  length : lo.length = m
  sorted_lo : lo.Pairwise (· ≤ ·)
  sorted_hi : hi.Pairwise (· ≤ ·)
  perm : (lo ++ hi).Perm (xs ++ ys)
  le : ∀ a ∈ lo, ∀ b ∈ hi, a ≤ b

/-- The `t`-th phase of `n` processes: `p` and `p + 1` are a pair if `p + t` is odd. -/
structure MergePhase (m n t : ℕ) (es es' : ℕ → List α) : Prop where
  pair : ∀ p, p + 1 < n → (p + t) % 2 = 1 → Splits m (es p) (es (p + 1)) (es' p) (es' (p + 1))
  idle : ∀ p < n, ((p + t) % 2 = 1 → n ≤ p + 1) → ((p + t) % 2 = 0 → p = 0) → es' p = es p

variable {m n t p : ℕ} {es es' : ℕ → List α} {xs ys lo hi : List α}

/-- **To merge and to split.** -/
theorem splits_insertionSort (ys : List α) (hxs : xs.length = m) :
    Splits m xs ys (((xs ++ ys).insertionSort (· ≤ ·)).take m)
      (((xs ++ ys).insertionSort (· ≤ ·)).drop m) where
  length := List.length_take_of_le (by rw [List.length_insertionSort, List.length_append]; omega)
  sorted_lo := (List.pairwise_insertionSort _ _).sublist (List.take_sublist ..)
  sorted_hi := (List.pairwise_insertionSort _ _).sublist (List.drop_sublist ..)
  perm := by
    rw [List.take_append_drop]
    exact List.perm_insertionSort _ _
  le a ha b hb := by
    have hsorted := List.pairwise_insertionSort (· ≤ ·) (xs ++ ys)
    rw [← List.take_append_drop m ((xs ++ ys).insertionSort (· ≤ ·)), List.pairwise_append]
      at hsorted
    exact hsorted.2.2 a ha b hb

/-- **What is kept on the left** of what is below some bound. -/
theorem Splits.countP_lo (h : Splits m xs ys lo hi) (v : α) :
    lo.countP (· ≤ v) = min m (xs.countP (· ≤ v) + ys.countP (· ≤ v)) := by
  have hcount := h.perm.countP_eq (· ≤ v)
  rw [List.countP_append, List.countP_append] at hcount
  have hle : lo.countP (· ≤ v) ≤ m := h.length ▸ List.countP_le_length
  by_cases hall : ∀ a ∈ lo, a ≤ v
  · have hm : lo.countP (· ≤ v) = m := by
      rw [← h.length]
      exact List.countP_eq_length.mpr fun a ha => decide_eq_true (hall a ha)
    omega
  · push Not at hall
    obtain ⟨a, ha, hva⟩ := hall
    have hzero : hi.countP (· ≤ v) = 0 :=
      List.countP_eq_zero.mpr fun b hb => by simpa using hva.trans_le (h.le a ha b hb)
    omega

theorem Splits.length_hi (h : Splits m xs ys lo hi) (hxs : xs.length = m) (hys : ys.length = m) :
    hi.length = m := by
  have hlen := h.perm.length_eq
  rw [List.length_append, List.length_append, h.length, hxs, hys] at hlen
  omega

/-- Where all on the right is below a bound, so is what is kept on the left. -/
theorem Splits.lo_le (h : Splits m xs ys lo hi) (hys : ys.length = m) {v : α}
    (hle : ∀ y ∈ ys, y ≤ v) : ∀ a ∈ lo, a ≤ v := by
  have hall : ys.countP (· ≤ v) = m := by
    rw [← hys]
    exact List.countP_eq_length.mpr fun y hy => decide_eq_true (hle y hy)
  have hlo : lo.countP (· ≤ v) = lo.length := by
    rw [h.countP_lo, hall, h.length]
    omega
  exact fun a ha => by simpa using List.countP_eq_length.mp hlo a ha

/-- Where all on the left is above it, so is what is kept on the right. -/
theorem Splits.lt_hi (h : Splits m xs ys lo hi) (hys : ys.length = m) {v : α}
    (hlt : ∀ x ∈ xs, v < x) : ∀ b ∈ hi, v < b := by
  have hnone : xs.countP (· ≤ v) = 0 :=
    List.countP_eq_zero.mpr fun x hx => by simpa using hlt x hx
  have hcount := h.perm.countP_eq (· ≤ v)
  have hle : ys.countP (· ≤ v) ≤ m := hys ▸ List.countP_le_length
  rw [List.countP_append, List.countP_append, h.countP_lo, hnone] at hcount
  have hhi : hi.countP (· ≤ v) = 0 := by omega
  exact fun b hb => by simpa using List.countP_eq_zero.mp hhi b hb

namespace MergePhase

/-- A process is on the left of a pair, on the right of one, or idle. -/
theorem cases (h : MergePhase m n t es es') (hp : p < n) :
    (p + 1 < n ∧ (p + t) % 2 = 1) ∨ (∃ q, p = q + 1 ∧ (q + t) % 2 = 1) ∨
      ((p + t) % 2 = 1 ∧ p + 1 = n ∨ (p + t) % 2 = 0 ∧ p = 0) ∧ es' p = es p := by
  by_cases hlow : p + 1 < n ∧ (p + t) % 2 = 1
  · exact .inl hlow
  by_cases hhigh : p ≠ 0 ∧ (p + t) % 2 = 0
  · obtain ⟨q, rfl⟩ := Nat.exists_eq_succ_of_ne_zero hhigh.1
    exact .inr (.inl ⟨q, rfl, by omega⟩)
  · exact .inr (.inr ⟨by omega, h.idle p hp (by omega) (by omega)⟩)

/-- The lists stay as long as they are. -/
theorem length (h : MergePhase m n t es es') (hlen : ∀ p < n, (es p).length = m) :
    ∀ p < n, (es' p).length = m := by
  intro p hp
  obtain ⟨hlt, hodd⟩ | ⟨q, rfl, hodd⟩ | ⟨-, hidle⟩ := h.cases hp
  · exact (h.pair p hlt hodd).length
  · exact (h.pair q hp hodd).length_hi (hlen q (by omega)) (hlen _ hp)
  · exact hidle ▸ hlen p hp

/-- And sorted. -/
theorem sorted (h : MergePhase m n t es es') (hsorted : ∀ p < n, (es p).Pairwise (· ≤ ·)) :
    ∀ p < n, (es' p).Pairwise (· ≤ ·) := by
  intro p hp
  obtain ⟨hlt, hodd⟩ | ⟨q, rfl, hodd⟩ | ⟨-, hidle⟩ := h.cases hp
  · exact (h.pair p hlt hodd).sorted_lo
  · exact (h.pair q hp hodd).sorted_hi
  · exact hidle ▸ hsorted p hp

/-! ## What is left of a boundary -/

/-- **Nothing crosses a boundary** that no pair lies across. -/
theorem upTo_perm (h : MergePhase m n t es es') :
    ∀ p ≤ n, (p = n ∨ (p + t) % 2 = 1 ∨ p = 0) → (upTo es' p).Perm (upTo es p) := by
  intro p
  induction p using Nat.strong_induction_on with
  | _ p ih =>
    intro hp hacross
    cases p with
    | zero => exact .refl _
    | succ p =>
      rw [upTo_succ, upTo_succ]
      obtain ⟨hlt, hodd⟩ | ⟨q, rfl, hodd⟩ | ⟨hend, hidle⟩ := h.cases (p := p) hp
      · omega
      · have hbefore := ih q (by omega) (by omega) (by omega)
        have hsplit := (h.pair q hp hodd).perm
        rw [upTo_succ, upTo_succ, List.append_assoc, List.append_assoc]
        exact hbefore.append hsplit
      · rw [hidle]
        exact (ih p (by omega) (by omega) (by omega)).append_right _

/-- **How much of what is below a bound** is left of a boundary, after a phase in which a pair lies
across it. -/
theorem countP_upTo (h : MergePhase m n t es es') (hp : p + 1 < n) (hodd : (p + t) % 2 = 1)
    (v : α) :
    (upTo es' (p + 1)).countP (· ≤ v) = min ((upTo es p).countP (· ≤ v) + m)
      ((upTo es (p + 2)).countP (· ≤ v)) := by
  have hbefore := (h.upTo_perm p (by omega) (by omega)).countP_eq (· ≤ v)
  have hlo := (h.pair p hp hodd).countP_lo v
  rw [upTo_succ, List.countP_append, hbefore, hlo, upTo_succ, upTo_succ, List.countP_append,
    List.countP_append]
  omega

end MergePhase

/-! ## All phases -/

section Phases

variable {es : ℕ → ℕ → List α} {T : ℕ}

theorem length_phases (h : ∀ t < T, MergePhase m n t (es t) (es (t + 1)))
    (hlen : ∀ p < n, (es 0 p).length = m) : ∀ t ≤ T, ∀ p < n, (es t p).length = m := by
  intro t
  induction t with
  | zero => exact fun _ => hlen
  | succ t ih => exact fun ht => (h t ht).length (ih (by omega))

theorem sorted_phases_lists (h : ∀ t < T, MergePhase m n t (es t) (es (t + 1)))
    (hsorted : ∀ p < n, (es 0 p).Pairwise (· ≤ ·)) :
    ∀ t ≤ T, ∀ p < n, (es t p).Pairwise (· ≤ ·) := by
  intro t
  induction t with
  | zero => exact fun _ => hsorted
  | succ t ih => exact fun ht => (h t ht).sorted (ih (by omega))

variable (es)

/-- **Nothing is lost.** -/
theorem perm_phases (h : ∀ t < T, MergePhase m n t (es t) (es (t + 1))) :
    ∀ t ≤ T, (upTo (es t) n).Perm (upTo (es 0) n) := by
  intro t
  induction t with
  | zero => exact fun _ => .refl _
  | succ t ih => exact fun ht => ((h t ht).upTo_perm n le_rfl (.inl rfl)).trans (ih (by omega))

/-- **What a boundary has after `t` phases**, of what is below a bound: all it can have or, where
the trace of its merges goes `l` times to the left and `r` times to the right before it ends, what
these bring. -/
theorem le_countP_phases (h : ∀ t < T, MergePhase m n t (es t) (es (t + 1)))
    (hlen : ∀ p < n, (es 0 p).length = m) (v : α) : ∀ t ≤ T, ∀ p ≤ n,
      (t = 0 ∨ p = 0 ∨ p = n ∨ (p + t) % 2 = 1) →
      p * m ≤ (upTo (es t) p).countP (· ≤ v) ∨
        (upTo (es 0) n).countP (· ≤ v) ≤ (upTo (es t) p).countP (· ≤ v) ∨
        ∃ l r, l + r = t ∧ l * m ≤ (upTo (es t) p).countP (· ≤ v) ∧
          (upTo (es 0) n).countP (· ≤ v) ≤ (upTo (es t) p).countP (· ≤ v) + (n - p - r) * m := by
  intro t
  induction t with
  | zero =>
    intro _ p hp _
    refine .inr (.inr ⟨0, 0, rfl, by omega, ?_⟩)
    obtain ⟨rest, hrest⟩ := isPrefix_upTo (es 0) hp
    have hlength := congrArg List.length hrest
    rw [List.length_append, length_upTo fun i hi => hlen i (by omega), length_upTo hlen] at hlength
    have hle : rest.countP (· ≤ v) ≤ rest.length := List.countP_le_length
    have hmul : (n - p) * m = n * m - p * m := Nat.sub_mul n p m
    rw [← hrest, List.countP_append, Nat.sub_zero]
    omega
  | succ t ih =>
    intro ht p hp hodd
    have hphase := h t ht
    obtain rfl | hpos := Nat.eq_zero_or_pos p
    · exact .inl (by omega)
    obtain rfl | hlt := hp.eq_or_lt
    · exact .inr (.inl ((perm_phases es h (t + 1) ht).countP_eq _).ge)
    obtain ⟨q, rfl⟩ := Nat.exists_eq_succ_of_ne_zero hpos.ne'
    have hstep := hphase.countP_upTo hlt (by omega) v
    have hleft := ih (by omega) q (by omega) (by omega)
    have hright := ih (by omega) (q + 2) (by omega) (by omega)
    have hq : (q + 1) * m = q * m + m := Nat.succ_mul q m
    have hq' : (q + 2) * m = q * m + m + m := by ring
    obtain hmin | hmin := min_choice ((upTo (es t) q).countP (· ≤ v) + m)
      ((upTo (es t) (q + 2)).countP (· ≤ v)) <;> rw [hmin] at hstep <;> rw [Nat.succ_eq_add_one]
    · -- The left one had less: it brings `m`.
      obtain hfull | hall | ⟨l, r, rfl, hl, hr⟩ := hleft
      · exact .inl (by omega)
      · exact .inr (.inl (by omega))
      · refine .inr (.inr ⟨l + 1, r, by omega, ?_, ?_⟩)
        · rw [Nat.succ_mul]
          omega
        · by_cases hr' : r ≤ n - (q + 1)
          · have hmul : (n - q - r) * m = (n - (q + 1) - r) * m + m := by
              rw [← Nat.succ_mul]
              congr 1
              omega
            omega
          · have hzero : n - q - r = 0 := by omega
            rw [hzero, Nat.zero_mul] at hr
            omega
    · -- The right one has no more than it had.
      obtain hfull | hall | ⟨l, r, rfl, hl, hr⟩ := hright
      · exact .inl (by omega)
      · exact .inr (.inl (by omega))
      · have hsub : n - (q + 2) - r = n - (q + 1) - (r + 1) := by omega
        exact .inr (.inr ⟨l, r + 1, by omega, by omega, by rw [← hsub]; omega⟩)

/-- A boundary that no pair lies across has what it had in the phase before. -/
theorem countP_phases (h : ∀ t < T, MergePhase m n t (es t) (es (t + 1)))
    (hlen : ∀ p < n, (es 0 p).length = m) (hT : n ≤ T) (v : α) (hp : p ≤ n) :
    p * m ≤ (upTo (es T) p).countP (· ≤ v) ∨
      (upTo (es 0) n).countP (· ≤ v) ≤ (upTo (es T) p).countP (· ≤ v) := by
  have hlate {t : ℕ} (ht : t ≤ T) (hn : n ≤ t + 1)
      (hodd : t = 0 ∨ p = 0 ∨ p = n ∨ (p + t) % 2 = 1) :
      p * m ≤ (upTo (es t) p).countP (· ≤ v) ∨
        (upTo (es 0) n).countP (· ≤ v) ≤ (upTo (es t) p).countP (· ≤ v) := by
    obtain hfull | hall | ⟨l, r, hsum, hl, hr⟩ := le_countP_phases es h hlen v t ht p hp hodd
    · exact .inl hfull
    · exact .inr hall
    · by_cases hpl : p ≤ l
      · exact .inl ((Nat.mul_le_mul_right m hpl).trans hl)
      · have hzero : n - p - r = 0 := by omega
        rw [hzero, Nat.zero_mul] at hr
        exact .inr hr
  by_cases hodd : T = 0 ∨ p = 0 ∨ p = n ∨ (p + T) % 2 = 1
  · exact hlate le_rfl (by omega) hodd
  · obtain ⟨t, rfl⟩ := Nat.exists_eq_succ_of_ne_zero (n := T) (by omega)
    have hsame := ((h t (Nat.lt_succ_self t)).upTo_perm p hp (by omega)).countP_eq (· ≤ v)
    rw [hsame]
    exact hlate (Nat.le_succ t) hT (by omega)

/-- **After as many phases as there are processes, the row is sorted.** -/
theorem sorted_phases (h : ∀ t < T, MergePhase m n t (es t) (es (t + 1)))
    (hlen : ∀ p < n, (es 0 p).length = m) (hsorted : ∀ p < n, (es 0 p).Pairwise (· ≤ ·))
    (hT : n ≤ T) : (upTo (es T) n).Pairwise (· ≤ ·) := by
  rw [upTo, List.pairwise_flatMap]
  refine ⟨fun p hp => sorted_phases_lists h hsorted T le_rfl p (List.mem_range.mp hp), ?_⟩
  refine List.pairwise_lt_range.imp_of_mem fun {i j} _ hj hij x hx y hy => ?_
  have hj := List.mem_range.mp hj
  -- Otherwise `y` is not left of the boundary `j`, and `x` keeps its place from others.
  by_contra hyx
  have hlenT := length_phases h hlen T le_rfl
  have hboundary := countP_phases es h hlen hT y hj.le
  have hbefore : (upTo (es T) j).countP (· ≤ y) < j * m := by
    rw [← length_upTo fun i hi => hlenT i (hi.trans hj)]
    refine lt_of_le_of_ne List.countP_le_length fun heq => hyx ?_
    have hmem : x ∈ upTo (es T) j :=
      List.mem_flatMap.mpr ⟨i, List.mem_range.mpr hij, hx⟩
    simpa using List.countP_eq_length.mp heq x hmem
  have hbehind : (upTo (es T) j).countP (· ≤ y) < (upTo (es 0) n).countP (· ≤ y) := by
    rw [← (perm_phases es h T le_rfl).countP_eq]
    have hprefix := (isPrefix_upTo (es T) (Nat.succ_le_of_lt hj)).sublist.countP_le (p := (· ≤ y))
    rw [upTo_succ, List.countP_append] at hprefix
    have hpos : 0 < (es T j).countP (· ≤ y) := List.countP_pos_iff.mpr ⟨y, hy, by simp⟩
    omega
  omega

/-! ## Fewer phases -/

/-- **Where the first process has what is above a bound** and the others have what is below, it
waits for a phase and is one place further after every other. -/
theorem late_phases (h : ∀ t < T, MergePhase m n t (es t) (es (t + 1)))
    (hlen : ∀ p < n, (es 0 p).length = m) (hT : T < n) {v : α} (hfirst : ∀ x ∈ es 0 0, v < x)
    (hothers : ∀ p < n, p ≠ 0 → ∀ x ∈ es 0 p, x ≤ v) :
    ∀ t ≤ T, ∀ p < n, (p = t - 1 → ∀ x ∈ es t p, v < x) ∧ (p ≠ t - 1 → ∀ x ∈ es t p, x ≤ v) := by
  intro t
  induction t with
  | zero => exact fun _ p hp => ⟨fun heq => heq ▸ hfirst, hothers p hp⟩
  | succ t ih =>
    intro ht p hp
    have hphase := h t ht
    have hlen := length_phases h hlen t (by omega)
    have ih := ih (by omega)
    obtain ⟨hlt, hodd⟩ | ⟨q, rfl, hodd⟩ | ⟨hend, hidle⟩ := hphase.cases hp
    · have hright := (ih (p + 1) hlt).2 (by omega)
      exact ⟨fun _ => by omega, fun _ => (hphase.pair p hlt hodd).lo_le (hlen _ hlt) hright⟩
    · have hsplit := hphase.pair q hp hodd
      refine ⟨fun heq => hsplit.lt_hi (hlen _ hp) ((ih q (by omega)).1 (by omega)),
        fun hne x hx => ?_⟩
      obtain hx | hx := List.mem_append.mp (hsplit.perm.subset (List.mem_append_right _ hx))
      · exact (ih q (by omega)).2 (by omega) x hx
      · exact (ih (q + 1) hp).2 (by omega) x hx
    · rw [hidle]
      exact ⟨fun _ => (ih p hp).1 (by omega), fun _ => (ih p hp).2 (by omega)⟩

/-- **With fewer phases than processes, such a row is not sorted.** -/
theorem unsorted_phases (h : ∀ t < T, MergePhase m n t (es t) (es (t + 1)))
    (hlen : ∀ p < n, (es 0 p).length = m) (hm : 0 < m) (hn : 2 ≤ n) (hT : T < n) {v : α}
    (hfirst : ∀ x ∈ es 0 0, v < x) (hothers : ∀ p < n, p ≠ 0 → ∀ x ∈ es 0 p, x ≤ v) :
    ¬ (upTo (es T) n).Pairwise (· ≤ ·) := by
  intro hsorted
  have hlate := late_phases es h hlen hT hfirst hothers T le_rfl
  have hlenT := length_phases h hlen T le_rfl
  obtain ⟨x, hx⟩ := List.exists_mem_of_length_pos (hm.trans_eq (hlenT (T - 1) (by omega)).symm)
  obtain ⟨y, hy⟩ := List.exists_mem_of_length_pos (hm.trans_eq (hlenT (n - 1) (by omega)).symm)
  rw [upTo, List.pairwise_flatMap] at hsorted
  have hle : x ≤ y := by
    have hrow := List.pairwise_iff_getElem.mp hsorted.2 (T - 1) (n - 1) (by simp; omega)
      (by simp; omega) (by omega)
    simp only [List.getElem_range] at hrow
    exact hrow x hx y hy
  have hvx := (hlate (T - 1) (by omega)).1 rfl x hx
  have hyv := (hlate (n - 1) (by omega)).2 (by omega) y hy
  exact absurd (hvx.trans_le (hle.trans hyv)) (lt_irrefl v)

end Phases

end Machinery
