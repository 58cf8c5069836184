import Libdsys.Branch.PlistDivide

/-!
# Branch/PlistValid — whether the validity field means what it says

`valid` is to count the entries that hold no rank.  `bc_plist_create` leaves it as it finds it,
`bc_plist_set` counts a store of -1 as a rank, and a division copies its list with `bc_plist_set`.

* `PlistHeap.Truthful` — every list counts those entries, and is accepted exactly if it has none.
* `truthful_iff` — it holds along a run exactly where no call gets in the way.
-/

open Machinery

namespace Libdsys

/-- **`valid` counts the entries that hold no rank.** -/
def Plist.Counted (pl : Plist) : Prop := pl.valid = pl.plist.count (-1)

theorem Plist.Counted.valid_eq_zero {pl : Plist} (h : pl.Counted) :
    pl.valid = 0 ↔ -1 ∉ pl.plist := by
  rw [h, Int.natCast_eq_zero, List.count_eq_zero]

theorem Plist.counted_of_not_mem {pl : Plist} (hvalid : pl.valid = 0) (h : -1 ∉ pl.plist) :
    pl.Counted := by
  rw [Plist.Counted, hvalid, List.count_eq_zero.mpr h]
  rfl

/-- Ranks of lists that are valid make a list that is counted right. -/
theorem Plist.counted_of_ranks {pls : List Plist} {pl : Plist} (hpls : ∀ pl' ∈ pls, pl'.Counted)
    (hvalid : ∀ pl' ∈ pls, pl'.valid = 0) (hpl : pl.valid = 0)
    (hranks : ∀ r ∈ pl.plist, ∃ pl' ∈ pls, r ∈ pl'.plist) : pl.Counted := by
  refine counted_of_not_mem hpl fun hmem => ?_
  obtain ⟨pl', hpl', hr⟩ := hranks _ hmem
  exact (hpls pl' hpl').valid_eq_zero.mp (hvalid pl' hpl') hr

open PlistCell

/-! ## The exclusion form -/

/-- The first `j` entries are filled in. -/
structure FilledTo (j : ℕ) (plist : List ℤ) : Prop where
  le : j ≤ plist.length
  nonneg : ∀ x ∈ plist.take j, 0 ≤ x

variable {s s' : ℤ} {j j' n : ℕ} {plist plist' : List ℤ}

theorem FilledTo.write (h : FilledTo j plist) (hs : 0 ≤ s)
    (hwrite : writeAt plist j [s] = some plist') :
    FilledTo (j + 1) plist' ∧ plist'.length = plist.length := by
  rw [writeAt, Option.ite_none_right_eq_some, Option.some.injEq, List.length_singleton] at hwrite
  obtain ⟨hle, rfl⟩ := hwrite
  have hlength := @length_overlay _ plist j [s] hle
  refine ⟨⟨by rw [hlength]; exact hle, ?_⟩, hlength⟩
  have htake : (overlay plist j [s]).take (j + 1) = plist.take j ++ [s] := by
    rw [overlay]
    exact List.take_left' (by simp; omega)
  intro x hx
  rw [htake, List.mem_append, List.mem_singleton] at hx
  rcases hx with hx | rfl
  · exact h.nonneg x hx
  · exact hs

theorem fillUpTo_spec (hs : 0 ≤ s) (h : FilledTo j plist)
    (hfill : fillUpTo n s j plist = some (s', j', plist')) :
    s' = s + n ∧ j' = j + n ∧ FilledTo j' plist' ∧ plist'.length = plist.length := by
  induction n generalizing s j plist with
  | zero =>
    simp only [fillUpTo, Option.some.injEq, Prod.mk.injEq] at hfill
    obtain ⟨rfl, rfl, rfl⟩ := hfill
    exact ⟨by simp, rfl, h, rfl⟩
  | succ n ih =>
    rw [fillUpTo, Option.bind_eq_bind, Option.bind_eq_some_iff] at hfill
    obtain ⟨plist₁, hwrite, hfill⟩ := hfill
    obtain ⟨h₁, hlength₁⟩ := h.write hs hwrite
    obtain ⟨hs', hj', h', hlength'⟩ := ih (by omega) h₁ hfill
    exact ⟨by omega, by omega, h', hlength'.trans hlength₁⟩

/-- Each rank that is left out takes the next value a step ahead of the entries. -/
theorem fillBetween_spec {args : List ℤ} (hs : 0 ≤ s) (h : FilledTo j plist)
    (hfill : fillBetween args s j plist = some (s', j', plist')) :
    0 ≤ s' ∧ s' - j' = s - j + args.length ∧ FilledTo j' plist' ∧
      plist'.length = plist.length := by
  induction args generalizing s j plist with
  | nil =>
    simp only [fillBetween, Option.some.injEq, Prod.mk.injEq] at hfill
    obtain ⟨rfl, rfl, rfl⟩ := hfill
    exact ⟨hs, by simp, h, rfl⟩
  | cons e args ih =>
    rw [fillBetween, Option.bind_eq_bind, Option.bind_eq_some_iff] at hfill
    obtain ⟨⟨s₁, j₁, plist₁⟩, hfirst, hfill⟩ := hfill
    obtain ⟨hs₁, hj₁, h₁, hlength₁⟩ := fillUpTo_spec hs h hfirst
    obtain ⟨hs', hdiff, h', hlength'⟩ := ih (by omega) h₁ hfill
    exact ⟨hs', by rw [List.length_cons]; omega, h', hlength'.trans hlength₁⟩

/-- **The exclusion form fills in every entry**, if it comes back. -/
theorem bcPlistCreateExcept_spec {size : ℕ} {valid : ℤ} {raw : ℕ → ℤ} {args : List ℤ} {pl : Plist}
    (h : bcPlistCreateExcept size valid raw args = some (some pl)) :
    args.length ≤ size ∧ pl.plist.length = size - args.length ∧ (∀ x ∈ pl.plist, 0 ≤ x) ∧
      pl.valid = valid := by
  rw [bcPlistCreateExcept, mallocInts] at h
  by_cases hneg : (size : ℤ) - args.length < 0
  · rw [if_pos hneg] at h
    cases h
  rw [if_neg hneg] at h
  simp only [Option.bind_eq_bind, Option.bind_eq_some_iff, Option.some.injEq, Prod.exists] at h
  obtain ⟨s, j, plist, hbetween, s', j', plist', hup, rfl⟩ := h
  have hlength : ((List.range (size - args.length : ℤ).toNat).map raw).length =
      size - args.length := by
    rw [List.length_map, List.length_range]
    omega
  have h₀ : FilledTo 0 ((List.range (size - args.length : ℤ).toNat).map raw) :=
    ⟨Nat.zero_le _, by simp⟩
  obtain ⟨hs, hdiff, h₁, hlength₁⟩ := fillBetween_spec (le_refl 0) h₀ hbetween
  obtain ⟨hs', hj', h₂, hlength₂⟩ := fillUpTo_spec hs h₁ hup
  rw [hlength₁, hlength] at hlength₂
  rw [List.length_insertionSort] at hdiff
  -- the last value is `size` or more, so there are as many entries as there is room for
  have hfull : plist'.length ≤ j' := by omega
  refine ⟨by omega, hlength₂, ?_, rfl⟩
  intro x hx
  exact h₂.nonneg x (by rwa [List.take_of_length_le hfull])

/-! ## Runs -/

namespace PlistHeap

/-- **What every list is to be**: `valid` counts the entries without a rank, and a list is accepted
exactly if it has none. -/
structure Truthful (s : PlistHeap) : Prop where
  counted : ∀ r ∈ s.lists, r.pl.Counted
  isvalid : ∀ r ∈ s.lists, r.pl.isvalid = true ↔ -1 ∉ r.pl.plist
  /-- By `bc_plist_union` and `bc_plist_isect`. -/
  sets : ∀ rs ⊆ s.lists, (addCounts (rs.map pl) 0).isSome ↔ ∀ r ∈ rs, -1 ∉ r.pl.plist
  diff : ∀ a ∈ s.lists, ∀ b ∈ s.lists,
    (bcPlistDiff a.pl b.pl).isSome ↔ -1 ∉ a.pl.plist ∧ -1 ∉ b.pl.plist

/-- **No call gets in the way of `valid`**: what memory holds happens to be right, -1 is not stored,
and a list that is divided is filled in. -/
def filling (size : ℕ) (s : PlistHeap) : PlistAct → Bool
  | .make (.create valid ranks) => ranks = [] ∨ valid = ranks.count (-1)
  | .make (.createExcept valid _ args) => size < args.length ∨ valid = 0
  | .make (.divide l num) =>
    (s.at? l).all fun r => (r.pl.plist.length : ℤ) < num ∨ num ≤ 0 ∨ -1 ∉ r.pl.plist
  | .set l loc value =>
    (s.at? l).all fun r => value ≠ -1 ∨ (r.pl.plist.length : ℤ) < loc ∨
      1 < r.rc ∧ r.pl.plist[loc.toNat]? ≠ some (-1)
  | _ => true

variable {size : ℕ} {s t : PlistHeap} {l : ℕ} {r : PlistCell}

/-- It comes down to `valid`. -/
theorem truthful_iff_counted : s.Truthful ↔ ∀ r ∈ s.lists, r.pl.Counted := by
  refine ⟨Truthful.counted, fun h => ⟨h, fun r hr => ?_, fun rs hrs => ?_, fun a ha b hb => ?_⟩⟩
  · rw [Plist.isvalid, decide_eq_true_iff, (h r hr).valid_eq_zero]
  · rw [isSome_addCounts, List.forall_mem_map]
    exact forall₂_congr fun r hr => (h r (hrs hr)).valid_eq_zero
  · rw [← (h a ha).valid_eq_zero, ← (h b hb).valid_eq_zero, bcPlistDiff]
    split
    · next hno => exact iff_of_false Bool.false_ne_true (by omega)
    · next hno => exact iff_of_true rfl (by omega)

/-- What a run keeps, with the counts in the range of an `int`. -/
def Sound (s : PlistHeap) : Prop :=
  ∀ r ∈ s.lists, r.pl.Counted ∧ r.pl.plist.length < 2 ^ 31

theorem Initial.sound (h : s.Initial) : s.Sound := by
  intro r hr
  obtain ⟨hvalid, hfilled⟩ := h.filled r hr
  exact ⟨Plist.counted_of_not_mem hvalid hfilled, h.small r hr⟩

/-- What is made of the cells that come from one list, if there is one. -/
theorem forall_mem_fresh {o : Option Plist} {P : PlistCell → Prop}
    (h : ∀ pl, o = some pl → P (fresh pl)) : ∀ r ∈ o.toList.map fresh, P r := by
  intro r hr
  obtain ⟨pl, hpl, rfl⟩ := List.mem_map.mp hr
  exact h pl (Option.mem_toList.mp hpl)

/-- The lists of a division are filled in if the one that was divided is. -/
theorem sound_dividedPart {src : List ℤ} (hfilled : -1 ∉ src) (hlength : src.length < 2 ^ 31)
    (n m : ℕ) :
    (⟨dividedPart src n m, 0⟩ : Plist).Counted ∧ (dividedPart src n m).length < 2 ^ 31 := by
  have hsub : (dividedPart src n m).Sublist src := by
    rw [dividedPart]
    split
    · exact List.drop_sublist _ _
    · exact (List.take_sublist _ _).trans (List.drop_sublist _ _)
  refine ⟨Plist.counted_of_not_mem rfl fun h => hfilled (hsub.subset h), ?_⟩
  exact hsub.length_le.trans_lt hlength

/-- What is made of the ranks of lists of the heap. -/
theorem Sound.of_ranks (hs : s.Sound) {rs : List PlistCell} {pl : Plist} (hrs : rs ⊆ s.lists)
    (h : (∀ pl' ∈ rs.map PlistCell.pl, pl'.valid = 0) ∧ pl.valid = 0 ∧
      (pl.plist.length : ℤ) ≤ totalCount (rs.map PlistCell.pl) ∧
      ∀ r ∈ pl.plist, ∃ pl' ∈ rs.map PlistCell.pl, r ∈ pl'.plist) :
    (fresh pl).pl.Counted ∧ (fresh pl).pl.plist.length < 2 ^ 31 := by
  obtain ⟨hvalid, hzero, hfit, hranks⟩ := h
  have hlt := asInt_lt ((rs.map PlistCell.pl).map fun pl => pl.plist.length).sum
  refine ⟨Plist.counted_of_ranks ?_ hvalid hzero hranks, ?_⟩
  · exact List.forall_mem_map.mpr fun r hr => (hs r (hrs hr)).1
  · rw [totalCount] at hfit
    exact Int.ofNat_lt.mp (hfit.trans_lt hlt)

/-- **What is made is sound**, unless the call gets in the way. -/
theorem Sound.made (hs : s.Sound) {m : PlistMake} {rs : List PlistCell}
    (hok : s.filling size (.make m) = true) (h : s.made size m = some rs) :
    ∀ r ∈ rs, r.pl.Counted ∧ r.pl.plist.length < 2 ^ 31 := by
  rcases m with ⟨valid, ranks⟩ | ⟨valid, raw, args⟩ | count | ⟨l, num⟩ | ⟨raw, ls⟩ |
    ⟨raw, raw', ls⟩ | ⟨a, b⟩ <;>
    simp only [PlistHeap.made, Option.bind_eq_bind, Option.bind_eq_some_iff, Option.guard_eq_some',
      Option.some.injEq, Prod.exists, exists_const] at h
  · obtain ⟨hcount, rfl⟩ := h
    refine forall_mem_fresh fun pl hpl => ?_
    rw [bcPlistCreate, Option.ite_none_left_eq_some, Option.some.injEq] at hpl
    obtain ⟨hne, rfl⟩ := hpl
    exact ⟨(of_decide_eq_true hok).resolve_left hne, hcount⟩
  · obtain ⟨hcount, o, ho, rfl⟩ := h
    refine forall_mem_fresh fun pl hpl => ?_
    obtain ⟨hle, hlength, hnonneg, hvalid⟩ := bcPlistCreateExcept_spec (hpl ▸ ho)
    have hzero := (of_decide_eq_true hok).resolve_left (Nat.not_lt.mpr hle)
    refine ⟨Plist.counted_of_not_mem (hvalid.trans hzero) fun hmem => ?_, ?_⟩
    · exact absurd (hnonneg _ hmem) (by decide)
    · rw [fresh, hlength]
      omega
  · obtain ⟨hcount, rfl⟩ := h
    refine forall_mem_fresh fun pl hpl => ?_
    rw [bcPlistCreateEmpty, Option.ite_none_left_eq_some, Option.some.injEq] at hpl
    obtain ⟨hpos, rfl⟩ := hpl
    simp only [fresh, Plist.Counted, List.count_replicate_self, List.length_replicate]
    omega
  · obtain ⟨r, hr, code, ps, hdivide, hin, rfl⟩ := h
    obtain ⟨-, hlength⟩ := hs r (mem_of_at? hr)
    rcases division_cases hdivide hin hlength with ⟨-, hnil⟩ | ⟨n, rfl, hpos, hle, hparts⟩
    · rw [hnil]
      exact List.forall_mem_nil _
    · rw [filling, hr] at hok
      have hfilled : -1 ∉ r.pl.plist :=
        ((of_decide_eq_true hok).resolve_left (by omega)).resolve_left (by omega)
      rw [hparts]
      exact List.forall_mem_map.mpr fun m _ => sound_dividedPart hfilled hlength n m
  · obtain ⟨rs, hrs, o, ho, rfl⟩ := h
    refine forall_mem_fresh fun pl hpl => ?_
    exact hs.of_ranks (mem_of_mapM_at? hrs) (bcPlistUnion_some (hpl ▸ ho))
  · obtain ⟨rs, hrs, o, ho, rfl⟩ := h
    refine forall_mem_fresh fun pl hpl => ?_
    exact hs.of_ranks (mem_of_mapM_at? hrs) (bcPlistIsect_some (hpl ▸ ho))
  · obtain ⟨ra, hra, rb, hrb, rfl⟩ := h
    refine forall_mem_fresh fun pl hpl => ?_
    obtain ⟨ha, hb, hzero, hsub⟩ := bcPlistDiff_some hpl
    obtain ⟨hcounted, hlength⟩ := hs ra (mem_of_at? hra)
    refine ⟨Plist.counted_of_not_mem hzero fun hmem => ?_, hsub.length_le.trans_lt hlength⟩
    exact hcounted.valid_eq_zero.mp ha (hsub.subset hmem)

/-- A store counts right, unless it stores -1. -/
theorem counted_set {pl : Plist} (h : pl.Counted) (hlength : pl.plist.length < 2 ^ 31) {i : ℕ}
    (hi : i < pl.plist.length) {value : ℤ} (hvalue : value ≠ -1) :
    Plist.Counted ⟨pl.plist.set i value,
      if pl.plist[i] = -1 then intAdd pl.valid (-1) else pl.valid⟩ := by
  have hle := List.count_le_length (a := -1) (l := pl.plist)
  rw [Plist.Counted, h, List.count_set hi]
  simp only [beq_iff_eq, hvalue, if_false, Nat.add_zero]
  split
  · next hempty =>
    have hpos : 0 < pl.plist.count (-1) := List.count_pos_iff.mpr (hempty ▸ List.getElem_mem hi)
    rw [intAdd_of_lt] <;> omega
  · rfl

/-- A list that is changed. -/
theorem Sound.set (hs : s.Sound) (hr : r.pl.Counted ∧ r.pl.plist.length < 2 ^ 31)
    {chans : List PlistUser} : Sound ⟨s.lists.set l r, chans⟩ := by
  intro r' hr'
  rcases List.mem_or_eq_of_mem_set hr' with hmem | rfl
  · exact hs r' hmem
  · exact hr

theorem filling_set {loc value : ℤ} (hr : s.at? l = some r) :
    s.filling size (.set l loc value) = true ↔ (value = -1 → (r.pl.plist.length : ℤ) < loc ∨
      1 < r.rc ∧ r.pl.plist[loc.toNat]? ≠ some (-1)) := by
  rw [filling, hr, Option.all_some, decide_eq_true_iff]
  exact imp_iff_not_or.symm

/-- **What a call keeps**, unless it gets in the way. -/
theorem Sound.step (hs : s.Sound) {a : PlistAct} (hok : s.filling size a = true)
    (h : s.step size a = some t) : t.Sound := by
  rcases step_cases h with ⟨m, rs, rfl, hrs, rfl⟩ |
    ⟨l, loc, value, r, code, r', rfl, hr, hset, rfl⟩ |
    ⟨l, consumer, r, rfl, hr, rfl⟩ | ⟨c, bc, r, rfl, hbc, hlive, hr, rfl⟩ | ⟨c, bc, rfl, hbc, rfl⟩ |
    ⟨l, r, rfl, hr, rfl⟩
  · exact List.forall_mem_append.mpr ⟨hs, hs.made hok hrs⟩
  · obtain ⟨hcounted, hlength⟩ := hs r (mem_of_at? hr)
    refine hs.set ?_
    rcases PlistCell.set_cases hset with ⟨rfl, -⟩ | ⟨i, hi, rfl, hstore, rfl⟩
    · exact ⟨hcounted, hlength⟩
    · have hvalue : value ≠ -1 := by
        intro hvalue
        have hkept := (filling_set hr).mp hok hvalue
        rw [Int.toNat_natCast, List.getElem?_eq_getElem hi, ne_eq, Option.some.injEq] at hkept
        omega
      exact ⟨counted_set hcounted hlength hi hvalue, by rwa [List.length_set]⟩
  · exact hs.set (by rw [pl_ref]; exact hs r (mem_of_at? hr))
  · exact hs.set (by rw [pl_chanDestroy]; exact hs r (List.mem_of_getElem? hr))
  · exact hs
  · exact hs.set (by rw [pl_destroy]; exact hs r (List.mem_of_getElem? hr))

/-- A store of -1 counts wrong. -/
theorem not_counted_set {pl : Plist} (h : pl.Counted) (hlength : pl.plist.length < 2 ^ 31) {i : ℕ}
    (hi : i < pl.plist.length) : ¬Plist.Counted ⟨pl.plist.set i (-1),
      if pl.plist[i] = -1 then intAdd pl.valid (-1) else pl.valid⟩ := by
  have hle := List.count_le_length (a := -1) (l := pl.plist)
  rw [Plist.Counted, h, List.count_set hi]
  simp only [beq_iff_eq, if_true]
  split
  · next hempty =>
    have hpos : 0 < pl.plist.count (-1) := List.count_pos_iff.mpr (hempty ▸ List.getElem_mem hi)
    rw [intAdd_of_lt] <;> omega
  · omega

/-- What the exclusion form returns where there is room. -/
theorem exists_of_bcPlistCreateExcept {valid : ℤ} {raw : ℕ → ℤ} {args : List ℤ} {o : Option Plist}
    (h : bcPlistCreateExcept size valid raw args = some o) (hle : args.length ≤ size) :
    ∃ pl, o = some pl := by
  rw [bcPlistCreateExcept, mallocInts, if_neg (by omega)] at h
  simp only [Option.bind_eq_bind, Option.bind_eq_some_iff, Option.some.injEq, Prod.exists] at h
  obtain ⟨s, j, plist, -, s', j', plist', -, rfl⟩ := h
  exact ⟨_, rfl⟩

/-- **A call that gets in the way** makes a list that is counted wrong. -/
theorem Sound.exists_not_counted (hs : s.Sound) {m : PlistMake} {rs : List PlistCell}
    (hno : ¬s.filling size (.make m) = true) (h : s.made size m = some rs) :
    ∃ r ∈ rs, ¬r.pl.Counted := by
  rcases m with ⟨valid, ranks⟩ | ⟨valid, raw, args⟩ | count | ⟨l, num⟩ | ⟨raw, ls⟩ |
    ⟨raw, raw', ls⟩ | ⟨a, b⟩
  · simp only [filling, decide_eq_true_iff, not_or] at hno
    simp only [PlistHeap.made, Option.bind_eq_bind, Option.bind_eq_some_iff, bcPlistCreate,
      if_neg hno.1, Option.some.injEq] at h
    obtain ⟨-, -, rfl⟩ := h
    exact ⟨_, List.mem_singleton_self _, hno.2⟩
  · simp only [filling, decide_eq_true_iff, not_or, Nat.not_lt] at hno
    simp only [PlistHeap.made, Option.bind_eq_bind, Option.bind_eq_some_iff,
      Option.some.injEq] at h
    obtain ⟨-, -, o, ho, rfl⟩ := h
    obtain ⟨pl, rfl⟩ := exists_of_bcPlistCreateExcept ho hno.1
    obtain ⟨-, -, hnonneg, hvalid⟩ := bcPlistCreateExcept_spec ho
    refine ⟨_, List.mem_singleton_self _, fun hcounted => hno.2 ?_⟩
    rw [← hvalid]
    exact hcounted.valid_eq_zero.mpr fun hmem => absurd (hnonneg _ hmem) (by decide)
  · exact absurd rfl hno
  · simp only [PlistHeap.made, Option.bind_eq_bind, Option.bind_eq_some_iff, Option.guard_eq_some',
      Option.some.injEq, Prod.exists, exists_const] at h
    obtain ⟨r, hr, code, ps, hdivide, hin, rfl⟩ := h
    rw [filling, hr, Option.all_some, decide_eq_true_iff, not_or, not_or, not_not] at hno
    obtain ⟨hfew, hpos, hmem⟩ := hno
    rcases division_cases hdivide hin (hs r (mem_of_at? hr)).2 with
      ⟨hcase, -⟩ | ⟨n, rfl, hn, hle, hps⟩
    · exact absurd hcase (not_or.mpr ⟨hfew, hpos⟩)
    · rw [← flatMap_dividedPart r.pl.plist hn, List.mem_flatMap] at hmem
      obtain ⟨m, hm, hmem⟩ := hmem
      refine ⟨_, by rw [hps]; exact List.mem_map_of_mem hm, fun hcounted => ?_⟩
      exact hcounted.valid_eq_zero.mp rfl hmem
  · exact absurd rfl hno
  · exact absurd rfl hno
  · exact absurd rfl hno

/-- **A call that gets in the way** leaves a list that is counted wrong. -/
theorem not_truthful {a : PlistAct} (hs : s.Sound) (hno : ¬s.filling size a = true)
    (h : s.step size a = some t) : ¬t.Truthful := by
  intro ht
  rcases step_cases h with ⟨m, rs, rfl, hrs, rfl⟩ |
    ⟨l, loc, value, r, code, r', rfl, hr, hset, rfl⟩ |
    ⟨l, consumer, r, rfl, hr, rfl⟩ | ⟨c, bc, r, rfl, hbc, hlive, hr, rfl⟩ | ⟨c, bc, rfl, hbc, rfl⟩ |
    ⟨l, r, rfl, hr, rfl⟩
  · obtain ⟨r, hr, hwrong⟩ := hs.exists_not_counted hno hrs
    exact hwrong (ht.counted r (List.mem_append_right _ hr))
  · rw [filling_set hr, Classical.not_imp, not_or] at hno
    obtain ⟨rfl, hin, hkept⟩ := hno
    obtain ⟨hcounted, hlength⟩ := hs r (mem_of_at? hr)
    rcases PlistCell.set_cases hset with ⟨-, hcase⟩ | ⟨i, hi, rfl, -, rfl⟩
    · exact hcase.elim hin hkept
    · obtain ⟨hl, -⟩ := List.getElem?_eq_some_iff.mp (at?_eq_some.mp hr).1
      exact not_counted_set hcounted hlength hi (ht.counted _ (List.mem_set hl _))
  · exact hno rfl
  · exact hno rfl
  · exact hno rfl
  · exact hno rfl

/-- **The validity field means what it says** along a run exactly where no call of it gets in the
way. -/
theorem truthful_iff {as : List PlistAct} (hinit : s.Initial)
    (hrun : run (step size) s as = some t) :
    Along (step size) Truthful s as ↔
      (run (restrict (fun s a => s.filling size a = true) (step size)) s as).isSome :=
  along_iff (fun _ hs => truthful_iff_counted.mpr fun r hr => (hs r hr).1)
    (fun _ _ _ hs hok h => hs.step hok h) (fun _ _ _ hs hno h => not_truthful hs hno h)
    hinit.sound hrun

/-- A list of two that is filled in one after the other. -/
theorem truthful_iff_two : Along (step 4) Truthful ⟨[], []⟩
    [.make (.createEmpty 2), .set 0 0 3, .set 0 1 1] :=
  (truthful_iff .empty rfl).mpr rfl

/-- A list as `bc_plist_create` makes it, with 77 where its `valid` comes to be. -/
theorem valid_not_set : ∃ t r, run (step 4) ⟨[], []⟩ [.make (.create 77 [3, 1])] = some t ∧
    r ∈ t.lists ∧ r.pl.plist = [3, 1] ∧ r.pl.isvalid = false ∧ ¬t.Truthful := by
  refine ⟨_, _, rfl, List.mem_singleton_self _, rfl, rfl, fun ht => ?_⟩
  have hcounted := ht.counted _ (List.mem_singleton_self _)
  exact absurd hcounted (by unfold Plist.Counted; decide)

end PlistHeap

end Libdsys
