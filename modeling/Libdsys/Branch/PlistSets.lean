import Mathlib.Algebra.GroupWithZero.Nat
import Libdsys.Branch.Plist
import Libdsys.Machinery.Ring
import Libdsys.Machinery.Tally

/-!
# Branch/PlistSets — unions and intersections of process lists

`bc_plist_union` and `bc_plist_isect` look every entry up in one block that grows behind a cursor,
and which is as long as the lists are together.  An intersection counts how often each entry is
met, and keeps those that were met as often as there are lists.

* `union_iff` — the union is what it should be as long as the `int` that adds up the counts does
  not wrap around to less than is needed.
* `isect_iff` — the intersection is what it should be if also no rank is met as often as there are
  lists without being in all of them, or the other way round.
-/

open Machinery

namespace Libdsys

/-- A sum of `int`s. -/
def intAdd (a b : ℤ) : ℤ := (a + b).bmod (2 ^ 32)

theorem intAdd_of_lt {a b : ℤ} (h : -2 ^ 31 ≤ a + b) (h' : a + b < 2 ^ 31) :
    intAdd a b = a + b := by
  unfold intAdd
  exact Int.bmod_eq_of_le_mul_two (by omega) (by omega)

/-- A number as an `int`. -/
def asInt (n : ℕ) : ℤ := (n : ℤ).bmod (2 ^ 32)

theorem asInt_of_lt {n : ℕ} (h : n < 2 ^ 31) : asInt n = n := by
  unfold asInt
  exact Int.bmod_eq_of_le_mul_two (by omega) (by omega)

theorem asInt_lt (n : ℕ) : asInt n < 2 ^ 31 := by
  unfold asInt
  have hlt := @Int.bmod_lt n (2 ^ 32) (by decide)
  omega

@[simp] theorem asInt_one : asInt 1 = 1 := asInt_of_lt (by decide)

theorem intAdd_asInt (m n : ℕ) : intAdd (asInt m) n = asInt (m + n) := by
  unfold intAdd asInt
  rw [Int.bmod_add_bmod, Int.natCast_add]

/-- The loop that adds up the counts — `none` at a list that is not valid. -/
def addCounts : List Plist → ℤ → Option ℤ
  | [], total => some total
  | pl :: ls, total =>
    if pl.valid ≠ 0 then none else addCounts ls (intAdd total pl.plist.length)

/-- `bc_malloc(int, total)`: a negative number is more than there is.  The block happens to hold
`raw`. -/
def mallocInts (raw : ℕ → ℤ) (total : ℤ) : Option (List ℤ) :=
  if total < 0 then none else some ((List.range total.toNat).map raw)

/-- Where the loop leaves off that looks for `v`: `n` entries are still to be compared, from the
`k`-th on. -/
def lookFor (list : List ℤ) (v : ℤ) : ℕ → ℕ → Option ℕ
  | 0, k => some k
  | n + 1, k => do
    let x ← list[k]?
    if x = v then some k else lookFor list v n (k + 1)

/-- What `bc_plist_union` does with an entry. -/
def unionEntry (s : List ℤ × ℕ) (v : ℤ) : Option (List ℤ × ℕ) := do
  let (list, cursor) := s
  let k ← lookFor list v cursor 0
  if k < cursor then some (list, cursor)
  else do
    let list ← writeAt list k [v]
    some (list, cursor + 1)

/-- `bc_plist_union`: `some none` is `NULL`, and `none` an access outside a block. -/
def bcPlistUnion (raw : ℕ → ℤ) (ls : List Plist) : Option (Option Plist) :=
  match (addCounts ls 0).bind (mallocInts raw) with
  | none => some none
  | some list => do
    let first ← ls.head?
    let list ← writeAt list 0 first.plist
    let (list, cursor) ← ls.tail.foldlM (fun s pl => pl.plist.foldlM unionEntry s)
      (list, first.plist.length)
    some (some ⟨list.take cursor, 0⟩)

/-- What `bc_plist_isect` does with an entry. -/
def isectEntry (s : List ℤ × List ℤ × ℕ) (v : ℤ) : Option (List ℤ × List ℤ × ℕ) := do
  let (list, inclusion, cursor) := s
  let k ← lookFor list v cursor 0
  if k < cursor then do
    let n ← inclusion[k]?
    let inclusion ← writeAt inclusion k [intAdd n 1]
    some (list, inclusion, cursor)
  else do
    let list ← writeAt list k [v]
    let inclusion ← writeAt inclusion k [1]
    some (list, inclusion, cursor + 1)

/-- The loop `if (inclusion[i] == num) list[k++] = list[i]`, with `n` rounds to go. -/
def keepIncluded (inclusion : List ℤ) (num : ℤ) : ℕ → ℕ → ℕ → List ℤ → Option (ℕ × List ℤ)
  | 0, _, k, list => some (k, list)
  | n + 1, i, k, list => do
    let m ← inclusion[i]?
    if m = num then do
      let x ← list[i]?
      let list ← writeAt list k [x]
      keepIncluded inclusion num n (i + 1) (k + 1) list
    else keepIncluded inclusion num n (i + 1) k list

/-- `bc_plist_isect`. -/
def bcPlistIsect (raw raw' : ℕ → ℤ) (ls : List Plist) : Option (Option Plist) :=
  match (addCounts ls 0).bind fun total => (mallocInts raw total).bind fun list =>
    (mallocInts raw' total).map fun inclusion => (list, inclusion) with
  | none => some none
  | some (list, inclusion) => do
    let first ← ls.head?
    let list ← writeAt list 0 first.plist
    let inclusion ← writeAt inclusion 0 (first.plist.map fun _ => 1)
    let (list, inclusion, cursor) ← ls.tail.foldlM (fun s pl => pl.plist.foldlM isectEntry s)
      (list, inclusion, first.plist.length)
    let (k, list) ← keepIncluded inclusion ls.length cursor 0 0 list
    if k = 0 then some none else some (some ⟨list.take k, 0⟩)

/-! ## The two loops -/

theorem lookFor_eq {list : List ℤ} {v : ℤ} {n k : ℕ} (h : k + n ≤ list.length) :
    lookFor list v n k = some (k + ((list.drop k).take n).idxOf v) := by
  induction n generalizing k with
  | zero => simp [lookFor]
  | succ n ih =>
    have hk : k < list.length := by omega
    rw [lookFor, List.getElem?_eq_getElem hk, List.drop_eq_getElem_cons hk, List.take_succ_cons,
      List.idxOf_cons]
    by_cases hv : list[k] = v
    · simp [hv]
    · have hv' : (list[k] == v) = false := by simpa using hv
      simp only [hv', cond_false, Option.bind_eq_bind, Option.bind_some, if_neg hv]
      rw [ih (by omega)]
      exact congrArg some (by omega)

/-- The entry is found where it is, or the loop comes to the cursor. -/
theorem lookFor_append (acc rest : List ℤ) (v : ℤ) :
    lookFor (acc ++ rest) v acc.length 0 = some (acc.idxOf v) := by
  rw [lookFor_eq (by simp), List.drop_zero, List.take_left, Nat.zero_add]

/-- A store right behind the cursor. -/
theorem writeAt_append {β : Type*} (acc : List β) (x y : β) (rest : List β) :
    writeAt (acc ++ x :: rest) acc.length [y] = some ((acc ++ [y]) ++ rest) := by
  rw [writeAt_eq_some (by simp), overlay, List.take_left, List.length_singleton,
    List.drop_append, List.drop_of_length_le (Nat.le_succ _), Nat.add_sub_cancel_left]
  rfl

theorem writeAt_length {β : Type*} (acc : List β) (y : β) : writeAt acc acc.length [y] = none :=
  if_neg (by simp)

theorem unionEntry_of_mem {acc : List ℤ} {v : ℤ} (h : v ∈ acc) (rest : List ℤ) :
    unionEntry (acc ++ rest, acc.length) v = some (acc ++ rest, acc.length) := by
  have hlt := List.idxOf_lt_length_of_mem h
  simp only [unionEntry, lookFor_append, Option.bind_eq_bind, Option.bind_some, if_pos hlt]

theorem unionEntry_of_not_mem {acc : List ℤ} {v : ℤ} (h : v ∉ acc) (x : ℤ) (rest : List ℤ) :
    unionEntry (acc ++ x :: rest, acc.length) v =
      some ((acc ++ [v]) ++ rest, (acc ++ [v]).length) := by
  simp only [unionEntry, lookFor_append, Option.bind_eq_bind, Option.bind_some,
    List.idxOf_eq_length h, lt_irrefl, if_false, writeAt_append, List.length_append,
    List.length_singleton]

/-- Where there is no place left, the store is outside the block. -/
theorem unionEntry_full {acc : List ℤ} {v : ℤ} (h : v ∉ acc) :
    unionEntry (acc, acc.length) v = none := by
  have hlook := lookFor_append acc [] v
  rw [List.append_nil] at hlook
  simp only [unionEntry, hlook, Option.bind_eq_bind, Option.bind_some, List.idxOf_eq_length h,
    lt_irrefl, if_false, writeAt_length, Option.bind_none]

/-- **The loops of `bc_plist_union`** collect the entries, as long as there is place. -/
theorem foldlM_unionEntry (xs acc rest : List ℤ) :
    xs.foldlM unionEntry (acc ++ rest, acc.length) =
      if (xs.foldl addNew acc).length ≤ acc.length + rest.length then
        some (xs.foldl addNew acc ++ rest.drop ((xs.foldl addNew acc).length - acc.length),
          (xs.foldl addNew acc).length)
      else none := by
  induction xs generalizing acc rest with
  | nil => simp
  | cons v xs ih =>
    rw [List.foldlM_cons, List.foldl_cons, addNew]
    by_cases hv : v ∈ acc
    · rw [unionEntry_of_mem hv, if_pos hv]
      exact ih acc rest
    · rw [if_neg hv]
      have hle := length_le_foldl_addNew (acc ++ [v]) xs
      rw [List.length_append, List.length_singleton] at hle
      cases rest with
      | nil =>
        rw [List.append_nil, unionEntry_full hv, if_neg (by rw [List.length_nil]; omega)]
        rfl
      | cons x rest =>
        rw [unionEntry_of_not_mem hv]
        refine (ih (acc ++ [v]) rest).trans ?_
        have hdrop : (xs.foldl addNew (acc ++ [v])).length - acc.length =
            (xs.foldl addNew (acc ++ [v])).length - (acc.length + 1) + 1 := by omega
        rw [List.length_append, List.length_singleton, List.length_cons, hdrop,
          List.drop_succ_cons, Nat.add_assoc, Nat.add_comm 1]

/-- The two loops of `bc_plist_union` and of `bc_plist_isect` are one. -/
theorem foldlM_foldlM {σ : Type} (f : σ → ℤ → Option σ) (ls : List Plist) (s : σ) :
    ls.foldlM (fun s pl => pl.plist.foldlM f s) s = (ls.flatMap Plist.plist).foldlM f s := by
  induction ls generalizing s with
  | nil => rfl
  | cons pl ls ih =>
    rw [List.foldlM_cons, List.flatMap_cons, List.foldlM_append]
    exact congrArg _ (funext ih)

/-! ## The union -/

/-- The sum of the counts, as an `int`. -/
def totalCount (ls : List Plist) : ℤ := asInt (ls.map fun pl => pl.plist.length).sum

/-- The entries of the first list, and every other rank of the others when it is first met. -/
def unionRanks (first : Plist) (others : List Plist) : List ℤ :=
  first.plist ++ ((others.flatMap Plist.plist).filter (· ∉ first.plist)).eraseDups

theorem unionRanks_eq (first : Plist) (others : List Plist) :
    unionRanks first others = (others.flatMap Plist.plist).foldl addNew first.plist :=
  (foldl_addNew _ _).symm

theorem addCounts_eq {ls : List Plist} (h : ∀ pl ∈ ls, pl.valid = 0) (x : ℕ) :
    addCounts ls (asInt x) = some (asInt (x + (ls.map fun pl => pl.plist.length).sum)) := by
  induction ls generalizing x with
  | nil => rfl
  | cons pl ls ih =>
    have hvalid : ¬pl.valid ≠ 0 := not_not.mpr (h pl List.mem_cons_self)
    rw [addCounts, if_neg hvalid, intAdd_asInt,
      ih fun pl' hpl' => h pl' (List.mem_cons_of_mem _ hpl'), List.map_cons, List.sum_cons,
      Nat.add_assoc]

theorem addCounts_valid {ls : List Plist} (h : ∀ pl ∈ ls, pl.valid = 0) :
    addCounts ls 0 = some (totalCount ls) := by
  have hsum := addCounts_eq h 0
  rwa [Nat.zero_add] at hsum

/-- The counts are added up if all the lists are valid. -/
theorem isSome_addCounts {ls : List Plist} {total : ℤ} :
    (addCounts ls total).isSome ↔ ∀ pl ∈ ls, pl.valid = 0 := by
  induction ls generalizing total with
  | nil => simp [addCounts]
  | cons pl ls ih =>
    rw [addCounts, List.forall_mem_cons]
    split
    · next h => exact iff_of_false nofun fun hall => h hall.1
    · next h => rw [ih, not_not.mp h, eq_self, true_and]

/-- Counts that are added up are those of valid lists. -/
theorem valid_of_addCounts {ls : List Plist} (total : ℤ) (h : addCounts ls total ≠ none) :
    ∀ pl ∈ ls, pl.valid = 0 := isSome_addCounts.mp (Option.ne_none_iff_isSome.mp h)

/-- A block of `total` entries takes up at least a list that fits in it. -/
theorem writeAt_map_range (raw : ℕ → ℤ) (total : ℕ) (l : List ℤ) :
    writeAt ((List.range total).map raw) 0 l = if l.length ≤ total then
      some (l ++ ((List.range total).map raw).drop l.length) else none := by
  rw [writeAt, List.length_map, List.length_range, Nat.zero_add]
  refine if_congr Iff.rfl ?_ rfl
  simp [overlay]

/-- **What `bc_plist_union` does with valid lists.** -/
theorem bcPlistUnion_eq (raw : ℕ → ℤ) {first : Plist} {others : List Plist}
    (h : ∀ pl ∈ first :: others, pl.valid = 0) :
    bcPlistUnion raw (first :: others) =
      if totalCount (first :: others) < 0 then some none
      else if ((unionRanks first others).length : ℤ) ≤ totalCount (first :: others) then
        some (some ⟨unionRanks first others, 0⟩)
      else none := by
  rw [bcPlistUnion, addCounts_valid h, Option.bind_some, mallocInts]
  generalize totalCount (first :: others) = total
  by_cases hneg : total < 0
  · rw [if_pos hneg, if_pos hneg]
  rw [if_neg hneg, if_neg hneg]
  obtain ⟨total, rfl⟩ := Int.eq_ofNat_of_zero_le (Int.not_lt.mp hneg)
  have hle := length_le_foldl_addNew first.plist (others.flatMap Plist.plist)
  simp only [List.head?_cons, List.tail_cons, Option.bind_eq_bind, Option.bind_some,
    Int.toNat_natCast, writeAt_map_range, Int.ofNat_le, foldlM_foldlM, unionRanks_eq]
  by_cases hfirst : first.plist.length ≤ total
  · rw [if_pos hfirst, Option.bind_some, foldlM_unionEntry, List.length_drop, List.length_map,
      List.length_range, Nat.add_sub_cancel' hfirst]
    by_cases hfit : ((others.flatMap Plist.plist).foldl addNew first.plist).length ≤ total
    · rw [if_pos hfit, if_pos hfit, Option.bind_some, List.take_left]
    · rw [if_neg hfit, if_neg hfit, Option.bind_none]
  · rw [if_neg hfirst, if_neg (by omega), Option.bind_none]

theorem mem_unionRanks {first : Plist} {others : List Plist} {r : ℤ} :
    r ∈ unionRanks first others ↔ ∃ pl ∈ first :: others, r ∈ pl.plist := by
  rw [unionRanks_eq, mem_foldl_addNew, List.mem_flatMap]
  simp

/-- **A union that is made** is made of valid lists. -/
theorem bcPlistUnion_some {raw : ℕ → ℤ} {ls : List Plist} {pl : Plist}
    (h : bcPlistUnion raw ls = some (some pl)) :
    (∀ pl' ∈ ls, pl'.valid = 0) ∧ pl.valid = 0 ∧ (pl.plist.length : ℤ) ≤ totalCount ls ∧
      ∀ r ∈ pl.plist, ∃ pl' ∈ ls, r ∈ pl'.plist := by
  have hvalid : ∀ pl' ∈ ls, pl'.valid = 0 := by
    refine valid_of_addCounts 0 fun hnone => ?_
    rw [bcPlistUnion, hnone] at h
    cases h
  rcases ls with _ | ⟨first, others⟩
  · cases h
  · rw [bcPlistUnion_eq raw hvalid] at h
    split_ifs at h with hneg hfit
    · cases h
    · obtain rfl := Option.some.inj (Option.some.inj h)
      exact ⟨hvalid, rfl, hfit, fun r => mem_unionRanks.mp⟩

/-- A sum that fits an `int` is no less than what is needed. -/
theorem length_unionRanks_le {first : Plist} {others : List Plist}
    (h : ((first :: others).map fun pl => pl.plist.length).sum < 2 ^ 31) :
    ((unionRanks first others).length : ℤ) ≤ totalCount (first :: others) := by
  have hle := length_foldl_addNew_le first.plist (others.flatMap Plist.plist)
  rw [List.length_flatMap] at hle
  rw [totalCount, asInt_of_lt h, unionRanks_eq, List.map_cons, List.sum_cons]
  exact Int.ofNat_le.mpr hle

/-- **The union of any number of process lists**: it is made exactly where the `int` that adds up
the counts is no less than the number of its entries, as it is where they add up to less than
2³¹. -/
theorem union_iff (raw : ℕ → ℤ) (first : Plist) (others : List Plist)
    (hvalid : ∀ pl ∈ first :: others, pl.valid = 0) :
    (bcPlistUnion raw (first :: others) = some (some ⟨unionRanks first others, 0⟩) ↔
      ((unionRanks first others).length : ℤ) ≤ totalCount (first :: others)) ∧
    (((first :: others).map fun pl => pl.plist.length).sum < 2 ^ 31 →
      ((unionRanks first others).length : ℤ) ≤ totalCount (first :: others)) ∧
    (∀ r, r ∈ unionRanks first others ↔ ∃ pl ∈ first :: others, r ∈ pl.plist) ∧
    (first.plist.Nodup → (unionRanks first others).Nodup) := by
  refine ⟨?_, length_unionRanks_le, fun r => mem_unionRanks, fun h => ?_⟩
  · rw [bcPlistUnion_eq raw hvalid]
    split
    · next hneg => exact iff_of_false nofun (by omega)
    · split
      · next hfit => exact iff_of_true rfl hfit
      · next hfit => exact iff_of_false nofun hfit
  · rw [unionRanks_eq]
    exact nodup_foldl_addNew h _

/-- Two lists of three and two. -/
theorem union_iff_two : bcPlistUnion (fun _ => 77) [⟨[7, 1, 5], 0⟩, ⟨[2, 1], 0⟩] =
    some (some ⟨[7, 1, 5, 2], 0⟩) :=
  (union_iff (fun _ => 77) ⟨[7, 1, 5], 0⟩ [⟨[2, 1], 0⟩] (by decide)).1.mpr
    ((union_iff (fun _ => 77) ⟨[7, 1, 5], 0⟩ [⟨[2, 1], 0⟩] (by decide)).2.1 (by decide))

/-- Two lists of 2³⁰ entries each are 2³¹ together, which is negative as an `int`. -/
theorem union_refused : ∃ pl : Plist, pl.valid = 0 ∧
    bcPlistUnion (fun _ => 0) [pl, pl] = some none := by
  obtain ⟨l, hl⟩ : ∃ l : List ℤ, l.length = 2 ^ 30 := ⟨_, List.length_replicate (a := 0)⟩
  have htotal : totalCount [⟨l, 0⟩, ⟨l, 0⟩] < 0 := by
    simp only [totalCount, List.map_cons, List.map_nil, hl]
    decide
  have hvalid : ∀ pl ∈ [(⟨l, 0⟩ : Plist), ⟨l, 0⟩], pl.valid = 0 := by simp
  exact ⟨⟨l, 0⟩, rfl, by rw [bcPlistUnion_eq _ hvalid, if_pos htotal]⟩

/-! ## The intersection -/

/-- The two blocks of `bc_plist_isect`: the values of a tally and its counts, as `int`s, each with
what is behind the cursor. -/
def tallied (ps : List (ℤ × ℕ)) (rest rest' : List ℤ) : List ℤ × List ℤ × ℕ :=
  (ps.map Prod.fst ++ rest, ps.map (fun p => asInt p.2) ++ rest', ps.length)

theorem lookFor_map_fst (ps : List (ℤ × ℕ)) (rest : List ℤ) (v : ℤ) :
    lookFor (ps.map Prod.fst ++ rest) v ps.length 0 = some ((ps.map Prod.fst).idxOf v) := by
  have hlook := lookFor_append (ps.map Prod.fst) rest v
  rwa [List.length_map] at hlook

/-- An entry that is met again. -/
theorem isectEntry_of_mem {ps : List (ℤ × ℕ)} {v : ℤ} (h : v ∈ ps.map Prod.fst)
    (rest rest' : List ℤ) :
    isectEntry (tallied ps rest rest') v = some (tallied (bump v ps) rest rest') := by
  have hlook := lookFor_map_fst ps rest v
  obtain ⟨before, n, after, rfl, hbefore, hbump⟩ := exists_bump_of_mem h
  have hidx : ((before ++ (v, n) :: after).map Prod.fst).idxOf v = before.length := by
    rw [List.map_append, List.idxOf_append_of_notMem hbefore, List.map_cons, List.idxOf_cons_self,
      List.length_map, Nat.add_zero]
  have hnext : intAdd (asInt n) 1 = asInt (n + 1) := intAdd_asInt n 1
  have hwrite := writeAt_append (before.map fun p => asInt p.2)
    (asInt n) (asInt (n + 1))
    ((after.map fun p => asInt p.2) ++ rest')
  rw [List.length_map] at hwrite
  rw [hidx] at hlook
  rw [hbump]
  simp only [isectEntry, tallied, hlook, Option.bind_eq_bind, Option.bind_some]
  simp only [List.map_append, List.map_cons, List.append_assoc, List.cons_append]
  rw [List.getElem?_append_right (by simp), List.length_map, Nat.sub_self, List.getElem?_cons_zero,
    Option.bind_some, hnext, hwrite]
  simp

/-- An entry that is new. -/
theorem isectEntry_of_not_mem {ps : List (ℤ × ℕ)} {v : ℤ} (h : v ∉ ps.map Prod.fst) (x x' : ℤ)
    (rest rest' : List ℤ) :
    isectEntry (tallied ps (x :: rest) (x' :: rest')) v =
      some (tallied (bump v ps) rest rest') := by
  have hlist := writeAt_append (ps.map Prod.fst) x v rest
  have hcount := writeAt_append (ps.map fun p => asInt p.2) x' 1 rest'
  rw [List.length_map] at hlist hcount
  rw [bump_of_not_mem h]
  simp only [isectEntry, tallied, lookFor_map_fst, Option.bind_eq_bind, Option.bind_some,
    List.idxOf_eq_length h, List.length_map, lt_irrefl, if_false, hlist, hcount]
  simp

theorem isectEntry_full {ps : List (ℤ × ℕ)} {v : ℤ} (h : v ∉ ps.map Prod.fst) :
    isectEntry (tallied ps [] []) v = none := by
  have hlook := lookFor_map_fst ps [] v
  have hfull := writeAt_length (ps.map Prod.fst) v
  rw [List.append_nil] at hlook
  rw [List.length_map] at hfull
  simp only [isectEntry, tallied, List.append_nil, hlook, Option.bind_eq_bind, Option.bind_some,
    List.idxOf_eq_length h, List.length_map, lt_irrefl, if_false, hfull, Option.bind_none]

theorem map_fst_bump (v : ℤ) (ps : List (ℤ × ℕ)) :
    (bump v ps).map Prod.fst = addNew (ps.map Prod.fst) v := by
  by_cases h : v ∈ ps.map Prod.fst
  · rw [addNew, if_pos h]
    obtain ⟨before, n, after, rfl, -, hbump⟩ := exists_bump_of_mem h
    rw [hbump]
    simp
  · rw [addNew, if_neg h, bump_of_not_mem h, List.map_append]
    rfl

/-- The values of a tally whose count, as an `int`, is `num`. -/
def included (num : ℤ) (ps : List (ℤ × ℕ)) : List ℤ :=
  (ps.filter fun p => asInt p.2 = num).map Prod.fst

theorem included_cons (num v : ℤ) (n : ℕ) (ps : List (ℤ × ℕ)) : included num ((v, n) :: ps) =
    if asInt n = num then v :: included num ps else included num ps := by
  by_cases hn : asInt n = num <;> simp [included, hn]

theorem mem_included_cons {num v r : ℤ} {n : ℕ} {ps : List (ℤ × ℕ)} :
    r ∈ included num ((v, n) :: ps) ↔ (r = v ∧ asInt n = num) ∨ r ∈ included num ps := by
  rw [included_cons]
  by_cases hn : asInt n = num <;> simp [hn]

/-- **The loops of `bc_plist_isect`** tally the entries, as long as there is place. -/
theorem foldlM_isectEntry (xs : List ℤ) {ps : List (ℤ × ℕ)} {rest rest' : List ℤ}
    (hrest : rest.length = rest'.length) :
    ((xs.foldl addNew (ps.map Prod.fst)).length ≤ ps.length + rest.length ∧
      ∃ rest₁ rest₂, xs.foldlM isectEntry (tallied ps rest rest') =
        some (tallied (xs.foldl (fun ps x => bump x ps) ps) rest₁ rest₂)) ∨
    (ps.length + rest.length < (xs.foldl addNew (ps.map Prod.fst)).length ∧
      xs.foldlM isectEntry (tallied ps rest rest') = none) := by
  induction xs generalizing ps rest rest' with
  | nil => exact .inl ⟨by simp, rest, rest', rfl⟩
  | cons v xs ih =>
    rw [List.foldlM_cons, List.foldl_cons, List.foldl_cons, ← map_fst_bump]
    have hlength : (bump v ps).length = (addNew (ps.map Prod.fst) v).length := by
      rw [← map_fst_bump, List.length_map]
    by_cases hv : v ∈ ps.map Prod.fst
    · rw [isectEntry_of_mem hv, show ps.length = (bump v ps).length by
        rw [hlength, addNew, if_pos hv, List.length_map]]
      exact ih hrest
    · rw [addNew, if_neg hv, List.length_append, List.length_map, List.length_singleton] at hlength
      cases rest with
      | nil =>
        obtain rfl : rest' = [] := List.eq_nil_of_length_eq_zero hrest.symm
        have hle := length_le_foldl_addNew ((bump v ps).map Prod.fst) xs
        rw [List.length_map, hlength] at hle
        exact .inr ⟨hle, by rw [isectEntry_full hv]; rfl⟩
      | cons x rest =>
        obtain ⟨x', rest', rfl⟩ := List.exists_cons_of_length_eq_add_one hrest.symm
        have hcount : ps.length + (x :: rest).length = (bump v ps).length + rest.length := by
          rw [hlength, List.length_cons]
          omega
        rw [isectEntry_of_not_mem hv, hcount]
        exact ih (Nat.succ.inj hrest)

/-- **The compaction keeps the entries whose count is right**: behind those kept so far (`out`) come
places already read (`mid`), and then the entries to come. -/
theorem keepIncluded_eq {num : ℤ} {ps : List (ℤ × ℕ)}
    {out mid pre list inclusion rest rest' : List ℤ}
    {i k : ℕ} (hi : i = out.length + mid.length) (hk : k = out.length) (hpre : i = pre.length)
    (hlist : list = out ++ mid ++ (ps.map Prod.fst ++ rest))
    (hinclusion : inclusion = pre ++ (ps.map (fun p => asInt p.2) ++ rest')) :
    ∃ rest'', keepIncluded inclusion num ps.length i k list =
      some ((out ++ included num ps).length, out ++ included num ps ++ rest'') := by
  induction ps generalizing out mid pre list i k with
  | nil => exact ⟨mid ++ rest, by simp [keepIncluded, included, hlist, hk]⟩
  | cons p ps ih =>
    obtain ⟨v, n⟩ := p
    have hcount : inclusion[i]? = some (asInt n) := by
      rw [hinclusion, hpre, List.getElem?_append_right (le_refl _), Nat.sub_self]
      rfl
    have hentry : list[i]? = some v := by
      rw [hlist, hi, ← List.length_append, List.getElem?_append_right (le_refl _), Nat.sub_self]
      rfl
    have hnext : inclusion = (pre ++ [asInt n]) ++
        (ps.map (fun p => asInt p.2) ++ rest') := by
      rw [hinclusion]
      simp
    have hpre' : i + 1 = (pre ++ [asInt n]).length := by rw [hpre]; simp
    rw [List.length_cons, keepIncluded, hcount, Option.bind_eq_bind, Option.bind_some,
      included_cons]
    by_cases hn : asInt n = num
    · -- the entry goes behind those kept, over itself or a place already read
      obtain ⟨m, mid', hmid⟩ : ∃ m mid', mid ++ [v] = m :: mid' :=
        List.exists_cons_of_ne_nil (by simp)
      have hlength : mid.length = mid'.length := by simpa using congrArg List.length hmid
      have hwrite : writeAt list k [v] =
          some ((out ++ [v]) ++ mid' ++ (ps.map Prod.fst ++ rest)) := by
        have hsplit : list = out ++ m :: (mid' ++ (ps.map Prod.fst ++ rest)) := by
          rw [hlist, ← List.cons_append, ← hmid]
          simp
        rw [hsplit, hk, writeAt_append, List.append_assoc (out ++ [v])]
      rw [if_pos hn, hentry, Option.bind_eq_bind, Option.bind_some, hwrite,
        Option.bind_some, if_pos hn]
      have hi' : i + 1 = (out ++ [v]).length + mid'.length := by rw [hi, hlength]; simp; omega
      have hk' : k + 1 = (out ++ [v]).length := by rw [hk]; simp
      obtain ⟨rest'', hrest⟩ := ih hi' hk' hpre' rfl hnext
      refine ⟨rest'', hrest.trans ?_⟩
      simp
    · have hlist' : list = out ++ (mid ++ [v]) ++ (ps.map Prod.fst ++ rest) := by rw [hlist]; simp
      rw [if_neg hn, if_neg hn]
      exact ih (by rw [hi]; simp; omega) hk hpre' hlist' hnext

/-- What `bc_plist_isect` keeps. -/
def isectRanks (first : Plist) (others : List Plist) : List ℤ :=
  included (first :: others).length
    (markFirst (occurrences first.plist (others.flatMap Plist.plist))
    [] (unionRanks first others))

/-- **What `bc_plist_isect` does with valid lists.** -/
theorem bcPlistIsect_eq (raw raw' : ℕ → ℤ) {first : Plist} {others : List Plist}
    (h : ∀ pl ∈ first :: others, pl.valid = 0) :
    bcPlistIsect raw raw' (first :: others) =
      if totalCount (first :: others) < 0 then some none
      else if ((unionRanks first others).length : ℤ) ≤ totalCount (first :: others) then
        some (if isectRanks first others = [] then none else some ⟨isectRanks first others, 0⟩)
      else none := by
  rw [bcPlistIsect, addCounts_valid h, Option.bind_some, mallocInts, mallocInts]
  generalize totalCount (first :: others) = total
  by_cases hneg : total < 0
  · rw [if_pos hneg, if_pos hneg, if_pos hneg]
    rfl
  rw [if_neg hneg, if_neg hneg, if_neg hneg]
  obtain ⟨total, rfl⟩ := Int.eq_ofNat_of_zero_le (Int.not_lt.mp hneg)
  have hle := length_le_foldl_addNew first.plist (others.flatMap Plist.plist)
  simp only [List.head?_cons, List.tail_cons, Option.bind_eq_bind, Option.bind_some,
    Option.map_some, Int.toNat_natCast, List.length_map, writeAt_map_range, Int.ofNat_le,
    foldlM_foldlM]
  by_cases hfirst : first.plist.length ≤ total
  · rw [if_pos hfirst, if_pos hfirst, Option.bind_some, Option.bind_some]
    have htally : (first.plist ++ ((List.range total).map raw).drop first.plist.length,
        first.plist.map (fun _ => (1 : ℤ)) ++ ((List.range total).map raw').drop first.plist.length,
        first.plist.length) = tallied (first.plist.map fun y => (y, 1))
          (((List.range total).map raw).drop first.plist.length)
          (((List.range total).map raw').drop first.plist.length) := by
      simp [tallied, Function.comp_def]
    rw [htally]
    have hloop := @foldlM_isectEntry (others.flatMap Plist.plist)
      (first.plist.map fun y => (y, 1))
      (((List.range total).map raw).drop first.plist.length)
      (((List.range total).map raw').drop first.plist.length) (by simp)
    have hkeys : (first.plist.map fun y => (y, 1)).map Prod.fst = first.plist := by
      simp [Function.comp_def]
    rw [hkeys, List.length_map, List.length_drop, List.length_map, List.length_range,
      Nat.add_sub_cancel' hfirst, foldl_bump, ← unionRanks_eq] at hloop
    obtain ⟨hfit, rest₁, rest₂, hloop⟩ | ⟨hfull, hloop⟩ := hloop
    · obtain ⟨rest₃, hkeep⟩ := @keepIncluded_eq (first :: others).length
        (markFirst (occurrences first.plist (others.flatMap Plist.plist)) []
          (unionRanks first others)) [] [] [] _ _ rest₁ rest₂ 0 0 rfl rfl rfl rfl rfl
      rw [hloop, Option.bind_some, if_pos hfit]
      refine (congrArg (Option.bind · _) hkeep).trans ?_
      rw [Option.bind_some, List.nil_append, ← isectRanks, List.take_left]
      by_cases hnil : isectRanks first others = []
      · rw [hnil]
        rfl
      · rw [if_neg hnil, if_neg (List.length_eq_zero_iff.not.mpr hnil)]
    · rw [hloop, Option.bind_none, if_neg (by omega)]
  · rw [if_neg hfirst, Option.bind_none, unionRanks_eq, if_neg (by omega)]

theorem sublist_included (num : ℤ) (f : ℤ → ℕ) (seen keys : List ℤ) :
    (included num (markFirst f seen keys)).Sublist keys := by
  induction keys generalizing seen with
  | nil => exact .slnil
  | cons y ys ih =>
    rw [markFirst, included_cons]
    generalize (if y ∈ seen then 1 else f y) = n
    by_cases hn : asInt n = num
    · rw [if_pos hn]
      exact (ih _).cons_cons y
    · rw [if_neg hn]
      exact (ih _).cons y

/-- **An intersection that is made** is made of valid lists. -/
theorem bcPlistIsect_some {raw raw' : ℕ → ℤ} {ls : List Plist} {pl : Plist}
    (h : bcPlistIsect raw raw' ls = some (some pl)) :
    (∀ pl' ∈ ls, pl'.valid = 0) ∧ pl.valid = 0 ∧ (pl.plist.length : ℤ) ≤ totalCount ls ∧
      ∀ r ∈ pl.plist, ∃ pl' ∈ ls, r ∈ pl'.plist := by
  have hvalid : ∀ pl' ∈ ls, pl'.valid = 0 := by
    refine valid_of_addCounts 0 fun hnone => ?_
    rw [bcPlistIsect, hnone] at h
    cases h
  rcases ls with _ | ⟨first, others⟩
  · cases h
  · have hkept : (isectRanks first others).Sublist (unionRanks first others) :=
      sublist_included _ _ _ _
    rw [bcPlistIsect_eq raw raw' hvalid] at h
    split_ifs at h with hneg hfit hnil
    · cases h
    · cases h
    · obtain rfl := Option.some.inj (Option.some.inj h)
      refine ⟨hvalid, rfl, ?_, fun r hr => mem_unionRanks.mp (hkept.subset hr)⟩
      exact Int.le_trans (Int.ofNat_le.mpr hkept.length_le) hfit

/-- `r` is in every one of the lists. -/
def Common (ls : List Plist) (r : ℤ) : Prop := ∀ pl ∈ ls, r ∈ pl.plist

/-- **What an intersection is to be**: it has the common ranks, in the order of the first list, and
is `NULL` where there is none. -/
def IsIntersection (first : Plist) (others : List Plist) : Option (Option Plist) → Prop
  | none => False
  | some none => ∀ r, ¬Common (first :: others) r
  | some (some pl) => pl.valid = 0 ∧ pl.plist ≠ [] ∧ pl.plist.Sublist first.plist ∧
      ∀ r, r ∈ pl.plist ↔ Common (first :: others) r

/-- **The lists an intersection comes out right for.**  Where the counts add up to an `int` that is
negative there is no common rank; otherwise that `int` is no less than the number of different
entries, and the ranks met as often as there are lists, the first list counted once, are those in
all of them. -/
def IsectFits (first : Plist) (others : List Plist) : Prop :=
  if totalCount (first :: others) < 0 then ∀ r, ¬Common (first :: others) r
  else ((unionRanks first others).length : ℤ) ≤ totalCount (first :: others) ∧
    ∀ r, asInt (occurrences first.plist (others.flatMap Plist.plist) r) = (first :: others).length ↔
      Common (first :: others) r

theorem mem_included_markFirst {num : ℤ} {f : ℤ → ℕ} {seen keys : List ℤ} {r : ℤ}
    (hone : 1 = num → ∀ y ∈ keys, asInt (f y) = num) :
    r ∈ included num (markFirst f seen keys) ↔
      r ∈ keys ∧ asInt (f r) = num ∧ (r ∉ seen ∨ 1 = num) := by
  induction keys generalizing seen with
  | nil => simp [markFirst, included]
  | cons y ys ih =>
    rw [markFirst, mem_included_cons, ih fun h z hz => hone h z (List.mem_cons_of_mem _ hz)]
    by_cases hry : r = y
    · subst hry
      by_cases hseen : r ∈ seen
      · have hfr := fun h1 => hone h1 r List.mem_cons_self
        simp only [hseen, if_true, asInt_one, true_and, List.mem_cons, true_or, not_true_eq_false,
          false_or]
        exact ⟨fun h => ⟨hfr (h.elim id fun h => h.2.2), h.elim id fun h => h.2.2⟩,
          fun h => .inl h.2⟩
      · simp only [hseen, if_false, List.mem_cons, true_and, true_or, not_false_eq_true, and_true]
        exact ⟨fun h => h.elim id fun h => h.2.1, .inl⟩
    · simp [hry]

/-- **What `bc_plist_isect` keeps** are the ranks met as often as there are lists. -/
theorem mem_isectRanks {first : Plist} {others : List Plist} {r : ℤ} :
    r ∈ isectRanks first others ↔
      asInt (occurrences first.plist (others.flatMap Plist.plist) r) =
        (first :: others).length := by
  rw [isectRanks, mem_included_markFirst, mem_unionRanks]
  · refine ⟨fun h => h.2.1, fun h => ⟨?_, h, .inl List.not_mem_nil⟩⟩
    by_contra hno
    have hnone : occurrences first.plist (others.flatMap Plist.plist) r = 0 := by
      have hothers : r ∉ others.flatMap Plist.plist := by
        rw [List.mem_flatMap]
        exact fun ⟨pl, hpl, hr⟩ => hno ⟨pl, List.mem_cons_of_mem _ hpl, hr⟩
      rw [occurrences, if_neg fun hr => hno ⟨first, List.mem_cons_self, hr⟩,
        List.count_eq_zero.mpr hothers]
    rw [hnone] at h
    exact absurd h (by rw [asInt_of_lt (by decide), List.length_cons]; omega)
  · -- with the first list alone, every entry is met once
    intro h y hy
    obtain rfl : others = [] := List.eq_nil_of_length_eq_zero (by
      rw [List.length_cons] at h
      omega)
    have hy' : y ∈ first.plist := by simpa [unionRanks] using hy
    simp [occurrences, hy']

/-- The ranks that are kept are in the order of the first list, if they are all in it. -/
theorem isectRanks_sublist {first : Plist} {others : List Plist}
    (h : ∀ r ∈ isectRanks first others, r ∈ first.plist) :
    (isectRanks first others).Sublist first.plist := by
  obtain ⟨kept, kept', heq, hfirst, hnew⟩ := List.sublist_append_iff.mp
    (sublist_included (first :: others).length
      (occurrences first.plist (others.flatMap Plist.plist)) [] (unionRanks first others))
  have hnil : kept' = [] := by
    refine List.eq_nil_iff_forall_not_mem.mpr fun r hr => ?_
    have hmem := h r (by rw [isectRanks, heq]; exact List.mem_append_right _ hr)
    have hother := hnew.subset hr
    rw [List.mem_eraseDups, List.mem_filter] at hother
    simp [hmem] at hother
  rw [isectRanks, heq, hnil, List.append_nil]
  exact hfirst

/-- **The intersection of any number of process lists**: it is what it is to be exactly for the
lists that fit. -/
theorem isect_iff (raw raw' : ℕ → ℤ) (first : Plist) (others : List Plist)
    (hvalid : ∀ pl ∈ first :: others, pl.valid = 0) :
    IsIntersection first others (bcPlistIsect raw raw' (first :: others)) ↔
      IsectFits first others := by
  rw [bcPlistIsect_eq raw raw' hvalid, IsectFits]
  split
  · exact Iff.rfl
  · split
    · next hfit =>
      simp only [hfit, true_and, ← mem_isectRanks]
      by_cases hnil : isectRanks first others = []
      · rw [if_pos hnil, hnil]
        exact forall_congr' fun r => ⟨fun h => iff_of_false List.not_mem_nil h,
          fun h hr => List.not_mem_nil (h.mpr hr)⟩
      · rw [if_neg hnil]
        refine ⟨fun h => h.2.2.2, fun h => ⟨rfl, hnil, ?_, h⟩⟩
        exact isectRanks_sublist fun r hr => (h r).mp hr first List.mem_cons_self
    · next hfit => exact iff_of_false id fun h => hfit h.1

/-- Where each list names a rank once, the ranks that are met in all of them are counted out. -/
theorem count_flatMap_of_nodup {ls : List Plist} (h : ∀ pl ∈ ls, pl.plist.Nodup) (r : ℤ) :
    (ls.flatMap Plist.plist).count r ≤ ls.length ∧
      ((ls.flatMap Plist.plist).count r = ls.length ↔ Common ls r) := by
  induction ls with
  | nil => simp [Common]
  | cons pl ls ih =>
    obtain ⟨hle, hiff⟩ := ih fun pl' hpl' => h pl' (List.mem_cons_of_mem _ hpl')
    have hcommon : Common (pl :: ls) r ↔ r ∈ pl.plist ∧ Common ls r := List.forall_mem_cons
    rw [List.flatMap_cons, List.count_append, (h pl List.mem_cons_self).count, hcommon, ← hiff,
      List.length_cons]
    by_cases hr : r ∈ pl.plist
    · simp only [hr, if_true, true_and]
      omega
    · simp only [hr, if_false, false_and, iff_false]
      omega

/-- **Lists that name each rank once fit**, if their counts do. -/
theorem isectFits_of_nodup {first : Plist} {others : List Plist}
    (hnodup : ∀ pl ∈ others, pl.plist.Nodup)
    (hfit : ((first :: others).map fun pl => pl.plist.length).sum < 2 ^ 31) :
    IsectFits first others := by
  have hpos : ¬totalCount (first :: others) < 0 := by
    rw [totalCount, asInt_of_lt hfit]
    omega
  rw [IsectFits, if_neg hpos]
  refine ⟨length_unionRanks_le hfit, fun r => ?_⟩
  obtain ⟨hle, hiff⟩ := count_flatMap_of_nodup hnodup r
  have hcount := List.count_le_length (a := r) (l := others.flatMap Plist.plist)
  rw [List.length_flatMap] at hcount
  have hcommon : Common (first :: others) r ↔ r ∈ first.plist ∧ Common others r :=
    List.forall_mem_cons
  rw [List.map_cons, List.sum_cons] at hfit
  rw [hcommon, ← hiff, occurrences, List.length_cons]
  by_cases hr : r ∈ first.plist
  · have hone := List.length_pos_of_mem hr
    rw [if_pos hr, asInt_of_lt (by omega)]
    simp only [hr, true_and]
    omega
  · rw [if_neg hr, asInt_of_lt (by omega)]
    simp only [hr, false_and, iff_false]
    omega

/-- Two lists that name each rank once. -/
theorem isect_iff_two : IsIntersection ⟨[7, 1, 5], 0⟩ [⟨[2, 1, 7], 0⟩]
    (bcPlistIsect (fun _ => 77) (fun _ => 77) [⟨[7, 1, 5], 0⟩, ⟨[2, 1, 7], 0⟩]) := by
  have hfits := @isectFits_of_nodup ⟨[7, 1, 5], 0⟩ [⟨[2, 1, 7], 0⟩] (by decide) (by decide)
  exact (isect_iff (fun _ => 77) (fun _ => 77) _ _ (by decide)).mpr hfits

/-- 2 is in one of two lists, twice. -/
theorem isect_repeated : bcPlistCreate 0 [1] = some ⟨[1], 0⟩ ∧
    bcPlistCreate 0 [2, 2] = some ⟨[2, 2], 0⟩ ∧
    bcPlistIsect (fun _ => 0) (fun _ => 0) [⟨[1], 0⟩, ⟨[2, 2], 0⟩] = some (some ⟨[2], 0⟩) ∧
    ¬IsIntersection ⟨[1], 0⟩ [⟨[2, 2], 0⟩]
      (bcPlistIsect (fun _ => 0) (fun _ => 0) [⟨[1], 0⟩, ⟨[2, 2], 0⟩]) := by
  refine ⟨rfl, rfl, rfl, fun h => ?_⟩
  have hmem : (2 : ℤ) ∈ [1] := ((h.2.2.2 2).mp List.mem_cons_self) _ List.mem_cons_self
  exact absurd hmem (by decide)

end Libdsys
