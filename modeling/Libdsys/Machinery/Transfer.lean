import Mathlib.Algebra.BigOperators.Group.List.Basic
import Mathlib.Algebra.Order.Ring.Int
import Libdsys.Machinery.Layout

/-!
# Machinery/Transfer — a transfer that a system call makes piece by piece

A loop asks a system call to transfer what remains of a block, and goes by what the call returns.

    `do { r = call(fd, p, remain); remain -= r; if (!remain) return; p += r; } while (1)`

The remainder is a number below `M`, and a pointer to things of `stride` cells moves by as many for
each that is added to it.

* `stands_pieces` — where the loop stands after some pieces, and that it returns after all.
* `offset_of_stands` — where it stands after any results whatever.
-/

namespace Machinery

variable {β : Type*}

/-- Where a loop stands: the pointer, seen from where it began, and what remains. -/
structure Transfer where
  off : ℤ
  remain : ℕ
deriving Repr, DecidableEq

namespace Transfer

/-- `remain -= r; if (!remain) return; p += r`. -/
def next (M : ℕ) (stride : ℤ) (t : Transfer) (r : ℤ) : Option Transfer :=
  let remain := ((t.remain - r) % M).toNat
  if remain = 0 then none else some ⟨t.off + r * stride, remain⟩

/-- Where the loop stands after the results `rs`, unless it has returned. -/
def stands (step : Transfer → ℤ → Option Transfer) (t : Transfer) (rs : List ℤ) :
    Option Transfer :=
  rs.foldlM step t

/-- The calls it makes, each with where the loop stands and the result. -/
def calls (step : Transfer → ℤ → Option Transfer) : Transfer → List ℤ → List (Transfer × ℤ)
  | _, [] => []
  | t, r :: rs => (t, r) :: match step t r with
    | none => []
    | some t' => calls step t' rs

/-- What calls that send take from memory. -/
def sent (m : Memory β) (cs : List (Transfer × ℤ)) : List β :=
  cs.flatMap fun c => m.read c.1.off c.2.toNat

/-- Memory after calls that receive, and what is left of the stream. -/
def received : Memory β → List β → List (Transfer × ℤ) → Memory β × List β
  | m, bs, [] => (m, bs)
  | m, bs, c :: cs => received (m.write c.1.off (bs.take c.2.toNat)) (bs.drop c.2.toNat) cs

/-- A call that touches nothing but the `n` cells of the block. -/
def Touches (n : ℕ) (c : Transfer × ℤ) : Prop := 0 ≤ c.1.off ∧ c.1.off + c.2 ≤ n

variable {M : ℕ} {stride off : ℤ} {n : ℕ} {t t' : Transfer} {r : ℤ} {rs : List ℤ}
  {step : Transfer → ℤ → Option Transfer}

theorem next_self (M : ℕ) (stride off : ℤ) (n : ℕ) : next M stride ⟨off, n⟩ n = none := by
  simp [next]

theorem next_of_lt (hr : 0 ≤ r) (hlt : r < t.remain) (hM : t.remain < M) :
    next M stride t r = some ⟨t.off + r * stride, (t.remain - r).toNat⟩ := by
  have hmod : (t.remain - r) % (M : ℤ) = t.remain - r := Int.emod_eq_of_lt (by omega) (by omega)
  simp only [next, hmod, if_neg (show ¬(t.remain - r).toNat = 0 by omega)]

theorem stands_cons : stands step t (r :: rs) = (step t r).bind fun t' => stands step t' rs :=
  List.foldlM_cons

theorem stands_append (rs rs' : List ℤ) :
    stands step t (rs ++ rs') = (stands step t rs).bind fun t' => stands step t' rs' :=
  List.foldlM_append

theorem next_eq_some (hM : 0 < M) (h : next M stride t r = some t') :
    t'.off = t.off + r * stride ∧ (t'.remain : ℤ) = (t.remain - r) % M ∧ t'.remain < M := by
  have hnonneg := Int.emod_nonneg (t.remain - r) (show (M : ℤ) ≠ 0 by omega)
  have hlt := Int.emod_lt_of_pos (t.remain - r) (show (0 : ℤ) < M by omega)
  rw [next] at h
  split at h
  · cases h
  · obtain rfl := Option.some.inj h
    exact ⟨rfl, Int.toNat_of_nonneg hnonneg, (Int.toNat_lt hnonneg).mpr hlt⟩

/-- **Where it stands after any results**: what was added to the pointer was taken from the
remainder. -/
theorem offset_of_stands (hM : t.remain < M) (h : stands (next M stride) t rs = some t') :
    t'.off = t.off + rs.sum * stride ∧ (t'.remain : ℤ) = (t.remain - rs.sum) % M := by
  induction rs generalizing t with
  | nil =>
    obtain rfl := Option.some.inj h
    have hmod : (t.remain : ℤ) % M = t.remain := Int.emod_eq_of_lt (by omega) (by omega)
    simp [hmod]
  | cons r rs ih =>
    rw [stands_cons] at h
    obtain ⟨u, hu, hstands⟩ := Option.bind_eq_some_iff.mp h
    obtain ⟨hoff, hremain, hlt⟩ := next_eq_some (by omega) hu
    obtain ⟨hoff', hremain'⟩ := ih hlt hstands
    constructor
    · rw [hoff', hoff, List.sum_cons, Int.add_mul]
      omega
    · rw [hremain', hremain, List.sum_cons, Int.emod_sub_emod, Int.sub_sub]

/-- Loops that go by the results given in the same way. -/
theorem calls_congr {step' : Transfer → ℤ → Option Transfer}
    (h : ∀ t, ∀ r ∈ rs, step t r = step' t r) : calls step t rs = calls step' t rs := by
  induction rs generalizing t with
  | nil => rfl
  | cons r rs ih =>
    rw [calls, calls, h t r List.mem_cons_self]
    rcases step' t r with _ | u
    · rfl
    · exact congrArg _ (ih fun t r hr => h t r (List.mem_cons_of_mem _ hr))

theorem stands_congr {step' : Transfer → ℤ → Option Transfer}
    (h : ∀ t, ∀ r ∈ rs, step t r = step' t r) : stands step t rs = stands step' t rs := by
  induction rs generalizing t with
  | nil => rfl
  | cons r rs ih =>
    rw [stands_cons, stands_cons, h t r List.mem_cons_self]
    exact Option.bind_congr fun u _ => ih fun t r hr => h t r (List.mem_cons_of_mem _ hr)

/-! ## Runs -/

/-- The first `k` results. -/
def results (res : ℕ → ℤ) (k : ℕ) : List ℤ := (List.range k).map res

variable {res : ℕ → ℤ} {k j : ℕ}

theorem results_succ (res : ℕ → ℤ) (k : ℕ) : results res (k + 1) = results res k ++ [res k] := by
  rw [results, List.range_succ, List.map_append, results]
  rfl

theorem sum_results_succ (res : ℕ → ℤ) (k : ℕ) :
    (results res (k + 1)).sum = (results res k).sum + res k := by
  rw [results_succ, List.sum_append, List.sum_singleton]

theorem stands_results_succ : stands step t (results res (k + 1)) =
    (stands step t (results res k)).bind fun t' => step t' (res k) := by
  rw [results_succ, stands_append]
  refine Option.bind_congr fun t' _ => ?_
  rw [stands_cons]
  exact Option.bind_fun_some _

/-- A loop that has returned makes no other call. -/
theorem stands_none_of_le (hle : k ≤ j) (h : stands step t (results res k) = none) :
    stands step t (results res j) = none := by
  induction j, hle using Nat.le_induction with
  | base => exact h
  | succ j _ ih => rw [stands_results_succ, ih, Option.bind_none]

/-- Something remains where the loop has not returned. -/
theorem remain_pos (hpos : 0 < t.remain) (h : stands (next M stride) t rs = some t') :
    0 < t'.remain := by
  induction rs generalizing t with
  | nil =>
    obtain rfl := Option.some.inj h
    exact hpos
  | cons r rs ih =>
    rw [stands_cons] at h
    obtain ⟨u, hu, hstands⟩ := Option.bind_eq_some_iff.mp h
    refine ih ?_ hstands
    rw [next] at hu
    split at hu
    · cases hu
    · next hne =>
      obtain rfl := Option.some.inj hu
      exact Nat.pos_of_ne_zero hne

/-! ## Pieces -/

/-- A transfer in one piece. -/
theorem calls_whole (M : ℕ) (stride off : ℤ) (n : ℕ) :
    calls (next M stride) ⟨off, n⟩ [(n : ℤ)] = [((⟨off, n⟩ : Transfer), (n : ℤ))] := by
  rw [calls, next_self]

theorem next_first {p p' : ℕ} {ps : List ℕ} (hp' : 0 < p') (hM : p + (p' :: ps).sum < M) :
    next M stride ⟨off, (p :: p' :: ps).sum⟩ p = some ⟨off + p * stride, (p' :: ps).sum⟩ := by
  rw [List.sum_cons, next_of_lt (by omega)]
  · congr 2
    dsimp only
    omega
  · rw [List.sum_cons]
    dsimp only
    omega
  · exact hM

/-- **A loop that is given all the pieces returns.** -/
theorem stands_pieces (stride off : ℤ) {ps : List ℕ} (hpos : ∀ p ∈ ps, 0 < p) (hne : ps ≠ [])
    (hM : ps.sum < M) :
    stands (next M stride) ⟨off, ps.sum⟩ (ps.map Nat.cast) = none := by
  induction ps generalizing off with
  | nil => exact absurd rfl hne
  | cons p ps ih =>
    rcases ps with _ | ⟨p', ps⟩
    · rw [List.map_cons, stands_cons, List.sum_singleton, next_self]
      rfl
    · rw [List.sum_cons] at hM
      rw [List.map_cons, stands_cons, next_first (hpos p' (by simp)) hM, Option.bind_some]
      exact ih _ (fun q hq => hpos q (List.mem_cons_of_mem p hq)) (by simp) (by omega)

/-- The second piece is behind as many things as the first has cells. -/
theorem second_mem_calls (stride off : ℤ) (p : ℕ) {p' : ℕ} (ps : List ℕ) (hp' : 0 < p')
    (hM : (p :: p' :: ps).sum < M) :
    (⟨off + p * stride, (p' :: ps).sum⟩, (p' : ℤ)) ∈
      calls (next M stride) ⟨off, (p :: p' :: ps).sum⟩ ((p :: p' :: ps).map Nat.cast) := by
  rw [List.map_cons, calls, next_first hp' hM]
  exact List.mem_cons_of_mem _ List.mem_cons_self

end Transfer

end Machinery
