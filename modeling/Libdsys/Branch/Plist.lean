import Mathlib.Data.List.Nodup
import Mathlib.Algebra.Group.Int.Defs

/-!
# Branch/Plist — process lists

`bc_plist_t` is an array of ranks with a validity field, which `bc_plist_create` leaves as it finds
it.  The difference of two lists is computed in one array: it holds the flags first, and then the
ranks that are kept, each behind the flag that is still to be read.

* `bcPlistDiff_eq` — the difference keeps what is not in the other list.
* `diff_ranks` — so it has those ranks, each once, and counts them.
-/

namespace Libdsys

/-- `bc_plist_t`, without its reference count, type and lock; its count is the length. -/
structure Plist where
  plist : List ℤ
  valid : ℤ
deriving Repr, DecidableEq

namespace Plist

/-- `bc_plist_isvalid`. -/
def isvalid (pl : Plist) : Bool := pl.valid = 0

/-- `bc_plist_iselem` of the calling process: the rank it is given is not looked at. -/
def iselem (pl : Plist) (bcRank : ℤ) : Bool := bcRank ∈ pl.plist

end Plist

/-- `bc_plist_create` of a positive count; `raw` is what the new `valid` happens to hold. -/
def bcPlistCreate (raw : ℤ) (ranks : List ℤ) : Option Plist :=
  if ranks = [] then none else some ⟨ranks, raw⟩

/-- The flag of the first entry that is `rank` is set. -/
def flagFirst (a : List ℤ) (flags : List ℤ) (rank : ℤ) : List ℤ := flags.set (a.idxOf rank) 1

/-- `for (; i < count; i++) if (!plist[i]) plist[j++] = a[i]`, and the count it ends with; the list
is what is left of `a`. -/
def chooseUnflagged : List ℤ → ℕ → ℕ → List ℤ → ℕ × List ℤ
  | [], _, j, plist => (j, plist)
  | rank :: ranks, i, j, plist =>
    if plist.getD i 1 = 0 then chooseUnflagged ranks (i + 1) (j + 1) (plist.set j rank)
    else chooseUnflagged ranks (i + 1) j plist

/-- `bc_plist_diff`. -/
def bcPlistDiff (a b : Plist) : Option Plist :=
  if a.valid ≠ 0 ∨ b.valid ≠ 0 then none
  else
    let flags := b.plist.foldl (flagFirst a.plist) (a.plist.map fun _ => 0)
    let (j, plist) := chooseUnflagged a.plist 0 0 flags
    some ⟨plist.take j, 0⟩

/-! ## The difference -/

/-- To flag a rank of a list that names each once. -/
theorem flagFirst_map {a : List ℤ} (h : a.Nodup) (f : ℤ → ℤ) (rank : ℤ) :
    flagFirst a (a.map f) rank = a.map fun x => if x = rank then 1 else f x := by
  refine List.ext_getElem? fun i => ?_
  rw [flagFirst, List.getElem?_set, List.length_map, List.getElem?_map, List.getElem?_map]
  rcases Nat.lt_or_ge i a.length with hlt | hge
  · rw [List.getElem?_eq_getElem hlt]
    by_cases hi : a.idxOf rank = i
    · subst hi
      simp [List.getElem_idxOf hlt, hlt]
    · have hne : a[i] ≠ rank := fun heq => hi (by rw [← heq, h.idxOf_getElem i hlt])
      simp [hi, hne]
  · rw [List.getElem?_eq_none hge]
    split
    case isTrue heq => rw [heq, if_neg (Nat.not_lt.mpr hge)]; rfl
    case isFalse => rfl

theorem foldl_flagFirst {a : List ℤ} (h : a.Nodup) (b : List ℤ) (f : ℤ → ℤ) :
    b.foldl (flagFirst a) (a.map f) = a.map fun x => if x ∈ b then 1 else f x := by
  induction b generalizing f with
  | nil => simp
  | cons rank b ih =>
    rw [List.foldl_cons, flagFirst_map h, ih]
    refine List.map_congr_left fun x _ => ?_
    by_cases hx : x ∈ b
    · simp [hx]
    · simp [hx]

/-- **The compaction keeps the ranks that are not flagged**: behind those kept so far (`out`) come
places already read (`mid`), and then the flags. -/
theorem chooseUnflagged_eq {ranks flags out mid plist : List ℤ} {i j : ℕ}
    (hlen : flags.length = ranks.length) (hi : i = out.length + mid.length) (hj : j = out.length)
    (hplist : plist = out ++ mid ++ flags) :
    (chooseUnflagged ranks i j plist).2.take (chooseUnflagged ranks i j plist).1 =
      out ++ ((ranks.zip flags).filter fun x => x.2 = 0).map Prod.fst := by
  induction ranks generalizing flags out mid plist i j with
  | nil =>
    obtain rfl := List.eq_nil_of_length_eq_zero hlen
    simp [chooseUnflagged, hplist, hj]
  | cons rank ranks ih =>
    obtain ⟨flag, flags, rfl⟩ := List.exists_cons_of_length_eq_add_one hlen
    replace hlen : flags.length = ranks.length := Nat.succ.inj hlen
    have hflag : plist.getD i 1 = flag := by
      rw [hplist, hi, List.getD_eq_getElem?_getD, ← List.length_append,
        List.getElem?_append_right (Nat.le_refl _), Nat.sub_self]
      rfl
    rw [chooseUnflagged, hflag]
    by_cases hzero : flag = 0
    · -- the rank goes behind those kept, over the flag itself or a place already read
      obtain ⟨m, mid', hmid⟩ : ∃ m mid', mid ++ [flag] = m :: mid' :=
        List.exists_cons_of_ne_nil (by simp)
      have hlength : mid.length = mid'.length := by
        simpa using congrArg List.length hmid
      have hset : plist.set j rank = out ++ [rank] ++ mid' ++ flags := by
        have hsplit : plist = out ++ m :: (mid' ++ flags) := by
          rw [hplist, ← List.cons_append, ← hmid]
          simp
        rw [hsplit, hj, List.set_append_right _ _ (Nat.le_refl _), Nat.sub_self]
        simp
      rw [if_pos hzero, ih hlen (by rw [hi, hlength]; simp; omega) (by rw [hj]; simp) hset]
      simp [hzero]
    · have hrest : plist = out ++ (mid ++ [flag]) ++ flags := by rw [hplist]; simp
      have hnext : i + 1 = out.length + (mid ++ [flag]).length := by rw [hi]; simp; omega
      rw [if_neg hzero, ih hlen hnext hj hrest]
      simp [hzero]

/-- **The difference of two valid lists** keeps what is not in the second. -/
theorem bcPlistDiff_eq {a b : Plist} (ha : a.valid = 0) (hb : b.valid = 0) (h : a.plist.Nodup) :
    bcPlistDiff a b = some ⟨a.plist.filter (· ∉ b.plist), 0⟩ := by
  have hflags := foldl_flagFirst h b.plist fun _ => 0
  have hkept : ∀ (f : ℤ → ℤ) (l : List ℤ),
      ((l.zip (l.map f)).filter fun x => x.2 = 0).map Prod.fst =
      l.filter fun x => f x = 0 := by
    intro f l
    induction l with
    | nil => rfl
    | cons x l ih => by_cases hx : f x = 0 <;> simp [hx, ih]
  have hchoose : (chooseUnflagged a.plist 0 0 (b.plist.foldl (flagFirst a.plist)
      (a.plist.map fun _ => 0))).2.take (chooseUnflagged a.plist 0 0
        (b.plist.foldl (flagFirst a.plist) (a.plist.map fun _ => 0))).1 =
      a.plist.filter fun x => (if x ∈ b.plist then (1 : ℤ) else 0) = 0 := by
    rw [hflags, ← hkept]
    exact @chooseUnflagged_eq a.plist _ [] [] _ 0 0 (List.length_map _) rfl rfl rfl
  have hvalid : ¬(a.valid ≠ 0 ∨ b.valid ≠ 0) := by simp [ha, hb]
  rw [bcPlistDiff, if_neg hvalid]
  refine congrArg some (congrArg (Plist.mk · 0) (hchoose.trans (List.filter_congr fun x _ => ?_)))
  by_cases hx : x ∈ b.plist <;> simp [hx]

theorem length_foldl_flagFirst (a b flags : List ℤ) :
    (b.foldl (flagFirst a) flags).length = flags.length := by
  induction b generalizing flags with
  | nil => rfl
  | cons rank b ih => rw [List.foldl_cons, ih, flagFirst, List.length_set]

/-- **A difference that is made** is made of valid lists, and has entries of the first. -/
theorem bcPlistDiff_some {a b pl : Plist} (h : bcPlistDiff a b = some pl) :
    a.valid = 0 ∧ b.valid = 0 ∧ pl.valid = 0 ∧ pl.plist.Sublist a.plist := by
  rw [bcPlistDiff, Option.ite_none_left_eq_some, not_or, not_not, not_not] at h
  obtain ⟨⟨ha, hb⟩, h⟩ := h
  have hlength : (b.plist.foldl (flagFirst a.plist) (a.plist.map fun _ => 0)).length =
      a.plist.length := by
    rw [length_foldl_flagFirst, List.length_map]
  have hkept := @chooseUnflagged_eq a.plist _ [] [] _ 0 0 hlength rfl rfl rfl
  have hzip := @List.map_fst_zip _ _ a.plist _ (Nat.le_of_eq hlength.symm)
  obtain rfl := Option.some.inj h
  refine ⟨ha, hb, rfl, ?_⟩
  rw [List.nil_append] at hkept
  have hsub := (@List.filter_sublist _ (fun x : ℤ × ℤ => decide (x.2 = 0))
    (a.plist.zip (b.plist.foldl (flagFirst a.plist) (a.plist.map fun _ => 0)))).map Prod.fst
  rw [hzip] at hsub
  exact hkept ▸ hsub

/-- The compaction counts no more entries than there is room for. -/
theorem chooseUnflagged_le {ranks plist : List ℤ} {i j : ℕ} (hj : j ≤ i)
    (hi : i + ranks.length ≤ plist.length) :
    (chooseUnflagged ranks i j plist).1 ≤ (chooseUnflagged ranks i j plist).2.length := by
  induction ranks generalizing i j plist with
  | nil => exact Nat.le_trans hj hi
  | cons rank ranks ih =>
    rw [List.length_cons] at hi
    rw [chooseUnflagged]
    split
    · exact ih (Nat.succ_le_succ hj) (by rw [List.length_set]; omega)
    · exact ih (Nat.le_succ_of_le hj) (by omega)

/-- The two loops of `bc_plist_diff`: the count they end with, and the array. -/
def diffEntries (a b : List ℤ) : ℕ × List ℤ :=
  chooseUnflagged a 0 0 (b.foldl (flagFirst a) (a.map fun _ => 0))

/-- **The difference of two process lists**: the ranks of the first that are not in the second, in
its order, each once, and as many as are counted. -/
theorem diff_ranks {a b : Plist} (ha : a.valid = 0) (hb : b.valid = 0) (h : a.plist.Nodup) :
    ∃ ranks : List ℤ, bcPlistDiff a b = some ⟨ranks, 0⟩ ∧
      (∀ r, r ∈ ranks ↔ r ∈ a.plist ∧ r ∉ b.plist) ∧ ranks.Sublist a.plist ∧ ranks.Nodup ∧
      (diffEntries a.plist b.plist).1 = ranks.length := by
  refine ⟨a.plist.filter (· ∉ b.plist), bcPlistDiff_eq ha hb h, fun r => ?_, List.filter_sublist,
    h.filter _, ?_⟩
  · rw [List.mem_filter, decide_eq_true_iff]
  · have heq := bcPlistDiff_eq ha hb h
    rw [bcPlistDiff, if_neg (by simp [ha, hb])] at heq
    have hcount : (diffEntries a.plist b.plist).1 ≤ (diffEntries a.plist b.plist).2.length := by
      refine chooseUnflagged_le (Nat.le_refl 0) (Nat.le_of_eq ?_)
      rw [length_foldl_flagFirst, List.length_map, Nat.zero_add]
    have hlength := congrArg (fun pl : Plist => pl.plist.length) (Option.some.inj heq)
    rw [← hlength]
    exact (List.length_take_of_le hcount).symm

/-- Two lists with a rank in common. -/
theorem diff_ranks_two : ∃ ranks : List ℤ, bcPlistDiff ⟨[7, 1, 5], 0⟩ ⟨[1, 9, 1], 0⟩ =
    some ⟨ranks, 0⟩ ∧ (∀ r, r ∈ ranks ↔ r ∈ [7, 1, 5] ∧ r ∉ [1, 9, 1]) ∧
    ranks.Sublist [7, 1, 5] ∧ ranks.Nodup ∧ (diffEntries [7, 1, 5] [1, 9, 1]).1 = ranks.length :=
  @diff_ranks ⟨[7, 1, 5], 0⟩ ⟨[1, 9, 1], 0⟩ rfl rfl (by decide)

end Libdsys
