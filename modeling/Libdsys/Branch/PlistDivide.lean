import Libdsys.Branch.PlistHeap

/-!
# Branch/PlistDivide — equal division

`bc_plist_divide` goes through the list once and fills one new list after the other from it; the
last one also takes the entries that are left over.

* `bcPlistEqualDivision_eq` — the lists it makes.
* `divided_lists` — they are filled in, and are the list that was divided.
* `safe_iff` — any other number than a positive one is not looked at before the division.
-/

open Machinery

namespace Libdsys

open PlistCell

/-- `bc_divpl_t`. -/
inductive DivplType
  | equal | num
deriving DecidableEq

/-- `bc_plist_divide`, with an array that is not `NULL`. -/
def bcPlistDivide (pl : Option Plist) (type : DivplType) (num : ℤ) :
    Option (ℤ × List (ℤ × Option PlistCell)) :=
  match pl with
  | none => some (-1, [])
  | some pl =>
    match type with
    | .equal => bcPlistEqualDivision pl num
    | .num => some (0, [])

variable {src : List ℤ} {cursor per k n : ℕ}

/-- A store in an entry that holds no rank. -/
theorem PlistCell.set_empty {r : PlistCell} {i : ℕ} (h : r.pl.plist[i]? = some (-1)) (value : ℤ) :
    r.set i value = some (intAdd r.pl.valid (-1),
      { r with pl := ⟨r.pl.plist.set i value, intAdd r.pl.valid (-1)⟩ }) := by
  have hi := (List.getElem?_eq_some_iff.mp h).1
  rw [PlistCell.set, if_neg (by omega), if_neg (by omega), Int.toNat_natCast, h]
  rfl

/-- **A list that is filled in** takes the entries from the cursor on: `out` are those it has. -/
theorem copyEntries_eq {out : List ℤ} {j : ℕ} {r : PlistCell} (h : cursor + n ≤ src.length)
    (hn : n < 2 ^ 31) (hj : j = out.length)
    (hr : r.pl = ⟨out ++ List.replicate n (-1), n⟩) :
    copyEntries src n j cursor r =
      some ({ r with pl := ⟨out ++ (src.drop cursor).take n, 0⟩ }, cursor + n) := by
  induction n generalizing out j cursor r with
  | zero =>
    rw [copyEntries, List.take_zero, List.append_nil]
    rw [List.replicate_zero, List.append_nil] at hr
    obtain ⟨pl, custom, rc, frees, handle⟩ := r
    subst hr
    rfl
  | succ n ih =>
    have hlt : cursor < src.length := by omega
    have hentry : r.pl.plist[j]? = some (-1) := by
      rw [hr, hj, List.getElem?_append_right (le_refl _), Nat.sub_self]
      rfl
    have hset : (out ++ List.replicate (n + 1) (-1)).set j src[cursor] =
        (out ++ [src[cursor]]) ++ List.replicate n (-1) := by
      rw [hj, List.set_append_right _ _ (le_refl _), Nat.sub_self, List.append_assoc]
      rfl
    have hvalid : intAdd r.pl.valid (-1) = n := by
      rw [hr, intAdd_of_lt] <;> push_cast <;> omega
    have hj' : j + 1 = (out ++ [src[cursor]]).length := by
      rw [hj, List.length_append, List.length_singleton]
    simp only [copyEntries, List.getElem?_eq_getElem hlt, Option.bind_eq_bind, Option.bind_some,
      PlistCell.set_empty hentry, hvalid]
    rw [hr, hset, ih (by omega) (by omega) hj' rfl, List.drop_eq_getElem_cons hlt,
      List.take_succ_cons, List.append_assoc, List.singleton_append, Nat.add_right_comm cursor,
      Nat.add_assoc cursor]

theorem fillPart_eq (h : cursor + per ≤ src.length) (hpos : 0 < per) (hper : per < 2 ^ 31) :
    fillPart src per cursor =
      some (some (fresh ⟨(src.drop cursor).take per, 0⟩), cursor + per) := by
  have hcreate : bcPlistCreateEmpty per = some ⟨List.replicate per (-1), per⟩ := by
    rw [bcPlistCreateEmpty, if_neg (by omega), Int.toNat_natCast]
  have hcopy := @copyEntries_eq src cursor per [] 0 (fresh ⟨List.replicate per (-1), per⟩) h hper
    rfl rfl
  simp only [fillPart, hcreate, Int.toNat_natCast, hcopy, Option.bind_eq_bind, Option.bind_some]
  rfl

/-- `per` entries for each of `k` lists, from the cursor on. -/
theorem fillParts_eq (h : cursor + k * per ≤ src.length) (hpos : 0 < per) (hper : per < 2 ^ 31)
    (i : ℕ) : fillParts src per k i cursor =
      some ((List.range k).map fun m =>
        ((↑(i + m) : ℤ), some (fresh ⟨(src.drop (cursor + m * per)).take per, 0⟩)),
        cursor + k * per) := by
  induction k generalizing i cursor with
  | zero => simp [fillParts]
  | succ k ih =>
    rw [Nat.succ_mul] at h
    have hnext : ((i : ℤ) + 1) = ((i + 1 : ℕ) : ℤ) := by push_cast; rfl
    have hfirst : fillPart src per cursor =
        some (some (fresh ⟨(src.drop cursor).take per, 0⟩), cursor + per) :=
      fillPart_eq (by omega) hpos hper
    have hrest := @ih (cursor + per) (by omega) (i + 1)
    simp only [fillParts, hfirst, hnext, hrest, Option.bind_eq_bind, Option.bind_some,
      List.range_succ_eq_map, List.map_cons, List.map_map]
    congr 2
    · rw [Nat.add_zero, Nat.zero_mul, Nat.add_zero]
      congr 1
      refine List.map_congr_left fun m _ => ?_
      have hi : i + 1 + m = i + m.succ := by omega
      have hm : cursor + per + m * per = cursor + m.succ * per := by rw [Nat.succ_mul]; omega
      rw [Function.comp_apply, hi, hm]
    · rw [Nat.succ_mul]
      omega

/-- The `m`-th of `num` lists: the last takes what is left. -/
def dividedPart (src : List ℤ) (num m : ℕ) : List ℤ :=
  let rest := src.drop (m * (src.length / num))
  if m + 1 = num then rest else rest.take (src.length / num)

/-- What a division into `num` stores in `plptr`. -/
def dividedParts (src : List ℤ) (num : ℕ) : List (ℤ × Option PlistCell) :=
  (List.range num).map fun m : ℕ => (↑m, some (fresh ⟨dividedPart src num m, 0⟩))

/-- The lists before the last have the same number of entries. -/
theorem dividedParts_succ (src : List ℤ) (num : ℕ) : dividedParts src (num + 1) =
    ((List.range num).map fun m : ℕ => ((m : ℤ), some (fresh
      ⟨(src.drop (m * (src.length / (num + 1)))).take (src.length / (num + 1)), 0⟩))) ++
    [((num : ℤ), some (fresh ⟨src.drop (num * (src.length / (num + 1))), 0⟩))] := by
  rw [dividedParts, List.range_succ, List.map_append, List.map_singleton, dividedPart, if_pos rfl]
  congr 1
  refine List.map_congr_left fun m hm => ?_
  rw [List.mem_range] at hm
  rw [dividedPart, if_neg (by omega)]

/-- **What an equal division does** where there is an entry for every list. -/
theorem bcPlistEqualDivision_eq {pl : Plist} {num : ℕ} (hpos : 0 < num)
    (hle : num ≤ pl.plist.length) (hlength : pl.plist.length < 2 ^ 31) :
    bcPlistEqualDivision pl num = some (0, dividedParts pl.plist num) := by
  rw [bcPlistEqualDivision]
  generalize pl.plist = src at *
  obtain ⟨num, rfl⟩ := Nat.exists_eq_add_one.mpr hpos
  have hmod := Nat.div_add_mod' src.length (num + 1)
  have hper : 0 < src.length / (num + 1) := Nat.div_pos hle hpos
  have hk : intAdd ((num + 1 : ℕ) : ℤ) (-1) = num := by
    rw [intAdd_of_lt] <;> push_cast <;> omega
  rw [dividedParts_succ, if_neg (by omega), if_neg (by omega)]
  simp only [← Int.ofNat_tdiv, ← Int.ofNat_tmod, hk]
  generalize src.length / (num + 1) = per at *
  generalize src.length % (num + 1) = extra at *
  rw [Nat.mul_succ, Nat.mul_comm per] at hmod
  have hdrop : (src.drop (num * per)).take (per + extra) = src.drop (num * per) :=
    List.take_of_length_le (by rw [List.length_drop]; omega)
  have hfirst := @fillParts_eq src 0 per num (by omega) hper (by omega) 0
  simp only [Nat.zero_add] at hfirst
  by_cases hextra : extra = 0
  · have hall := @fillParts_eq src 0 per (num + 1) (by rw [Nat.succ_mul]; omega) hper (by omega) 0
    simp only [Nat.zero_add, List.range_succ, List.map_append, List.map_singleton] at hall
    rw [hextra, Nat.add_zero] at hdrop
    rw [hdrop] at hall
    simp only [hextra, Int.natCast_zero, ne_eq, not_true_eq_false, if_false, Int.toNat_natCast,
      Option.bind_eq_bind]
    refine (congrArg (Option.bind · _) hall).trans ?_
    rfl
  · have hne : (extra : ℤ) ≠ 0 := by omega
    have hlast := @fillPart_eq src (num * per) (per + extra) (by omega) (by omega) (by omega)
    rw [hdrop] at hlast
    simp only [if_pos hne, Int.toNat_natCast, Option.bind_eq_bind]
    refine (congrArg (Option.bind · _) hfirst).trans ?_
    rw [Option.bind_some]
    refine (congrArg (Option.bind · _) hlast).trans ?_
    rfl

theorem flatMap_range_take (src : List ℤ) (per n : ℕ) :
    ((List.range n).flatMap fun m => (src.drop (m * per)).take per) = src.take (n * per) := by
  induction n with
  | zero => simp
  | succ n ih =>
    rw [List.range_succ, List.flatMap_append, ih, List.flatMap_singleton, Nat.succ_mul,
      List.take_add]

/-- **The lists of a division** are the one that was divided. -/
theorem flatMap_dividedPart (src : List ℤ) {num : ℕ} (hpos : 0 < num) :
    (List.range num).flatMap (dividedPart src num) = src := by
  obtain ⟨num, rfl⟩ := Nat.exists_eq_add_one.mpr hpos
  have hfirst : (List.range num).flatMap (dividedPart src (num + 1)) =
      (List.range num).flatMap fun m =>
        (src.drop (m * (src.length / (num + 1)))).take (src.length / (num + 1)) := by
    refine List.flatMap_congr fun m hm => ?_
    rw [List.mem_range] at hm
    rw [dividedPart, if_neg (by omega)]
  rw [List.range_succ, List.flatMap_append, hfirst, flatMap_range_take, List.flatMap_singleton,
    dividedPart, if_pos rfl, List.take_append_drop]

/-- **The lists of a division**, whatever number of them is asked for: there are none where there
are not enough entries, or no number is asked for. -/
theorem division_cases {pl : Plist} {num code : ℤ} {ps : List (ℤ × Option PlistCell)}
    (h : bcPlistEqualDivision pl num = some (code, ps)) (hin : ∀ p ∈ ps, 0 ≤ p.1 ∧ p.1 < num)
    (hlength : pl.plist.length < 2 ^ 31) :
    ((pl.plist.length : ℤ) < num ∨ num ≤ 0) ∧ ps.filterMap Prod.snd = [] ∨
    ∃ n : ℕ, num = n ∧ 0 < n ∧ n ≤ pl.plist.length ∧
      ps.filterMap Prod.snd = (List.range n).map fun m => fresh ⟨dividedPart pl.plist n m, 0⟩ := by
  rcases lt_or_ge (pl.plist.length : ℤ) num with hmany | hle
  · rw [bcPlistEqualDivision, if_pos hmany] at h
    obtain ⟨-, rfl⟩ := Prod.mk.inj (Option.some.inj h)
    exact .inl ⟨.inl hmany, rfl⟩
  rcases lt_or_ge 0 num with hpos | hneg
  · obtain ⟨n, rfl⟩ := Int.eq_ofNat_of_zero_le hpos.le
    rw [bcPlistEqualDivision_eq (by omega) (by omega) hlength] at h
    obtain ⟨-, rfl⟩ := Prod.mk.inj (Option.some.inj h)
    refine .inr ⟨n, rfl, by omega, by omega, ?_⟩
    simp [dividedParts]
  · have hnil : ps = [] := by
      refine List.eq_nil_iff_forall_not_mem.mpr fun p hp => ?_
      obtain ⟨hp₀, hp₁⟩ := hin p hp
      omega
    exact .inl ⟨.inr hneg, by rw [hnil]; rfl⟩

theorem length_dividedPart {num m : ℕ} (hm : m < num) : (dividedPart src num m).length =
    src.length / num + if m + 1 = num then src.length % num else 0 := by
  have hmod := Nat.div_add_mod' src.length num
  rw [dividedPart]
  generalize src.length / num = per at *
  generalize src.length % num = extra at *
  split
  · next hlast =>
    rw [← hlast, Nat.mul_succ, Nat.mul_comm] at hmod
    rw [List.length_drop]
    omega
  · next hlast =>
    have hle : (m + 1) * per ≤ num * per := Nat.mul_le_mul_right per hm
    rw [Nat.succ_mul] at hle
    rw [Nat.mul_comm] at hmod
    rw [List.length_take, List.length_drop]
    omega

/-- **An equal division**, where there is an entry for every list: `plptr` has the lists, none empty
and all filled in, which are the list that was divided; and that is left as it is. -/
theorem divided_lists {size : ℕ} {s : PlistHeap} {l num : ℕ} {r : PlistCell}
    (hr : s.at? l = some r) (hlength : r.pl.plist.length < 2 ^ 31) (hpos : 1 ≤ num)
    (hle : num ≤ r.pl.plist.length) : ∃ plptr : ℕ → PlistCell,
      bcPlistDivide (some r.pl) .equal num =
        some (0, (List.range num).map fun m : ℕ => ((m : ℤ), some (plptr m))) ∧
      s.step size (.make (.divide l num)) =
        some { s with lists := s.lists ++ (List.range num).map plptr } ∧
      (∀ m < num, (plptr m).pl.plist ≠ [] ∧ (plptr m).pl.isvalid = true ∧
        (plptr m).pl.plist.length = r.pl.plist.length / num +
          if m + 1 = num then r.pl.plist.length % num else 0) ∧
      ((List.range num).flatMap fun m => (plptr m).pl.plist) = r.pl.plist := by
  have hdivide := bcPlistEqualDivision_eq hpos hle hlength
  refine ⟨fun m => fresh ⟨dividedPart r.pl.plist num m, 0⟩, hdivide, ?_, fun m hm => ?_,
    flatMap_dividedPart _ hpos⟩
  · have hstored : ∀ p ∈ dividedParts r.pl.plist num, 0 ≤ p.1 ∧ p.1 < num := by
      intro p hp
      obtain ⟨m, hm, rfl⟩ := List.mem_map.mp hp
      exact ⟨Int.natCast_nonneg m, Int.ofNat_lt.mpr (List.mem_range.mp hm)⟩
    have hkept : (dividedParts r.pl.plist num).filterMap Prod.snd =
        (List.range num).map fun m => fresh ⟨dividedPart r.pl.plist num m, 0⟩ := by
      rw [dividedParts, List.filterMap_map]
      exact congrFun List.filterMap_eq_map _
    have hguard : guard (∀ p ∈ dividedParts r.pl.plist num, 0 ≤ p.1 ∧ p.1 < num) = some () :=
      if_pos hstored
    rw [PlistHeap.step_of_not_faulted (PlistHeap.at?_eq_some.mp hr).2.2]
    simp only [PlistHeap.call, PlistHeap.made, hr, hdivide, hguard, hkept, Option.bind_eq_bind,
      Option.bind_some]
  · have hper : 0 < r.pl.plist.length / num := Nat.div_pos hle hpos
    have hpart := @length_dividedPart r.pl.plist num m hm
    refine ⟨List.ne_nil_of_length_pos ?_, rfl, hpart⟩
    exact hpart ▸ Nat.add_pos_left hper _

/-- Five entries in two lists. -/
theorem divided_lists_two : ∃ plptr : ℕ → PlistCell,
    bcPlistDivide (some ⟨[4, 2, 0, 3, 1], 0⟩) .equal (2 : ℕ) =
      some (0, (List.range 2).map fun m : ℕ => ((m : ℤ), some (plptr m))) ∧
    ((List.range 2).flatMap fun m => (plptr m).pl.plist) = [4, 2, 0, 3, 1] := by
  obtain ⟨plptr, hdivide, -, -, hlists⟩ := @divided_lists 5
    ⟨[fresh ⟨[4, 2, 0, 3, 1], 0⟩], []⟩ 0 2 _ rfl (by decide) (by decide) (by decide)
  exact ⟨plptr, hdivide, hlists⟩

/-! ## Any number of lists -/

/-- **A division that is safe**: nothing goes wrong in it, and it stores lists `0` to `num - 1`
only; and where it is impossible it returns -1 and stores nothing. -/
def SafeDivision (pl : Plist) (num : ℤ) : Option (ℤ × List (ℤ × Option PlistCell)) → Prop
  | none => False
  | some (code, stored) => (∀ p ∈ stored, 0 ≤ p.1 ∧ p.1 < num) ∧
      (num < 1 ∨ pl.plist.length < num → code = -1 ∧ stored = [])

/-- A division that looks at its number returns 0. -/
theorem code_of_division {pl : Plist} {num code : ℤ} {ps : List (ℤ × Option PlistCell)}
    (hle : num ≤ pl.plist.length) (h : bcPlistEqualDivision pl num = some (code, ps)) :
    code = 0 := by
  rw [bcPlistEqualDivision, if_neg (not_lt.mpr hle), Option.ite_none_left_eq_some] at h
  simp only [Option.bind_eq_bind, Option.bind_eq_some_iff, Prod.exists] at h
  obtain ⟨-, parts, cursor, -, h⟩ := h
  split at h
  · obtain ⟨⟨r, cursor'⟩, -, h⟩ := Option.bind_eq_some_iff.mp h
    exact (Prod.mk.inj (Option.some.inj h)).1.symm
  · exact (Prod.mk.inj (Option.some.inj h)).1.symm

/-- **Which divisions are safe**: those into a positive number of lists. -/
theorem safe_iff {pl : Plist} (hlength : pl.plist.length < 2 ^ 31) (num : ℤ) :
    SafeDivision pl num (bcPlistDivide (some pl) .equal num) ↔ 0 < num := by
  rw [bcPlistDivide]
  constructor
  · intro h
    by_contra hneg
    rcases hdivide : bcPlistEqualDivision pl num with _ | ⟨code, ps⟩
    · rwa [hdivide] at h
    · have hcode := code_of_division (by omega) hdivide
      rw [hdivide] at h
      have hminus := (h.2 (.inl (by omega))).1
      omega
  · intro hpos
    obtain ⟨n, rfl⟩ := Int.eq_ofNat_of_zero_le hpos.le
    rcases Nat.lt_or_ge pl.plist.length n with hmany | hle
    · rw [bcPlistEqualDivision, if_pos (Int.ofNat_lt.mpr hmany)]
      exact ⟨List.forall_mem_nil _, fun _ => ⟨rfl, rfl⟩⟩
    · rw [bcPlistEqualDivision_eq (by omega) hle hlength]
      refine ⟨fun p hp => ?_, fun himpossible => ?_⟩
      · obtain ⟨m, hm, rfl⟩ := List.mem_map.mp hp
        exact ⟨Int.natCast_nonneg m, Int.ofNat_lt.mpr (List.mem_range.mp hm)⟩
      · omega

/-- A list of three in four. -/
theorem safe_iff_many :
    SafeDivision ⟨[1, 2, 3], 0⟩ 4 (bcPlistDivide (some ⟨[1, 2, 3], 0⟩) .equal 4) :=
  (safe_iff (by decide) 4).mpr (by decide)

/-- No list at all: the count is divided by zero. -/
theorem divided_by_zero : bcPlistDivide (some ⟨[1, 2, 3], 0⟩) .equal 0 = none ∧
    ¬SafeDivision ⟨[1, 2, 3], 0⟩ 0 (bcPlistDivide (some ⟨[1, 2, 3], 0⟩) .equal 0) :=
  ⟨rfl, id⟩

/-- Minus two lists: an entry is left over, and `plptr[-3]` is set. -/
example : (bcPlistDivide (some ⟨[1, 2, 3], 0⟩) .equal (-2)).map (fun x => x.2.map Prod.fst) =
    some [-3] := by decide

end Libdsys
