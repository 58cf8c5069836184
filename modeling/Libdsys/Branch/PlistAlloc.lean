import Libdsys.Machinery.Alloc
import Libdsys.Branch.PlistSets

/-!
# Branch/PlistAlloc — process lists when allocations fail

A union and an intersection allocate an array for the lists they are given, one or two blocks of
ranks, and the list they make; each failure is undone by hand.

* `cleansUp_union_iff`, `cleansUp_isect_iff` — the undoing is right except for the last failure, and
  an intersection forgets its ranks where there are none in common.
-/

open Machinery

namespace Libdsys.Alloc

variable {σ : Type}

/-- `bc_plist_t`: its block, the block of its ranks unless that is `NULL`, and the ranks. -/
structure PlistBlocks where
  pl : ℕ
  plist : Option ℕ
  ranks : List ℤ
deriving Repr, DecidableEq

/-- `bc_malloc(int, total)`: a negative number is more than there is. -/
def mallocInts (total : ℤ) : StateM (Mem σ) (Option ℕ) :=
  if total < 0 then pure none else malloc

/-- The loops of `bc_plist_union`, in a block of `total` entries. -/
def unionEntries (raw : ℕ → ℤ) (total : ℕ) (ls : List Plist) : Option (List ℤ) := do
  let first ← ls.head?
  let list ← writeAt ((List.range total).map raw) 0 first.plist
  let (list, cursor) ← ls.tail.foldlM (fun s pl => pl.plist.foldlM unionEntry s)
    (list, first.plist.length)
  some (list.take cursor)

/-- `bc_plist_union`, when allocations may fail: `some none` is an access outside a block. -/
def bcPlistUnion (raw : ℕ → ℤ) (ls : List Plist) : StateM (Mem σ) (Option (Option PlistBlocks)) :=
  ifNull malloc (pure ()) fun plptr =>
  ifNull (pure (addCounts ls 0)) (free plptr) fun total =>
  ifNull (mallocInts total) (free plptr) fun list =>
  match unionEntries raw total.toNat ls with
  | none => pure (some none)
  | some ranks =>
    ifNull malloc (free plptr) fun pl => do
      free plptr
      let plist ← realloc list ranks.length
      pure (some (some ⟨pl, plist, ranks⟩))

/-- The loops of `bc_plist_isect`, in two blocks of `total` entries: what is kept, and behind it
what is left of the entries. -/
def isectEntries (raw raw' : ℕ → ℤ) (total : ℕ) (ls : List Plist) : Option (ℕ × List ℤ) := do
  let first ← ls.head?
  let list ← writeAt ((List.range total).map raw) 0 first.plist
  let inclusion ← writeAt ((List.range total).map raw') 0 (first.plist.map fun _ => 1)
  let (list, inclusion, cursor) ← ls.tail.foldlM (fun s pl => pl.plist.foldlM isectEntry s)
    (list, inclusion, first.plist.length)
  keepIncluded inclusion ls.length cursor 0 0 list

/-- `bc_plist_isect`, when allocations may fail. -/
def bcPlistIsect (raw raw' : ℕ → ℤ) (ls : List Plist) :
    StateM (Mem σ) (Option (Option PlistBlocks)) :=
  ifNull malloc (pure ()) fun plptr =>
  ifNull (pure (addCounts ls 0)) (free plptr) fun total =>
  ifNull (mallocInts total) (free plptr) fun list =>
  ifNull (mallocInts total) (do free list; free plptr) fun inclusion =>
  match isectEntries raw raw' total.toNat ls with
  | none => pure (some none)
  | some (k, entries) => do
    free plptr
    free inclusion
    if k = 0 then pure none
    else
      ifNull malloc (free plptr) fun pl => do
        let plist ← realloc list k
        pure (some (some ⟨pl, plist, entries.take k⟩))

/-! ## What they do when nothing fails -/

theorem bcPlistUnion_entries (raw : ℕ → ℤ) (ls : List Plist) : Libdsys.bcPlistUnion raw ls =
    match addCounts ls 0 with
    | none => some none
    | some total =>
      if total < 0 then some none
      else (unionEntries raw total.toNat ls).map fun ranks => some ⟨ranks, 0⟩ := by
  rcases hadd : addCounts ls 0 with _ | total
  · rw [Libdsys.bcPlistUnion, hadd]
    rfl
  · by_cases hneg : total < 0
    · simp only [Libdsys.bcPlistUnion, hadd, Option.bind_some, Libdsys.mallocInts, if_pos hneg]
    · simp only [Libdsys.bcPlistUnion, hadd, Option.bind_some, Libdsys.mallocInts, if_neg hneg,
        unionEntries, Option.bind_eq_bind, Option.map_bind, Function.comp_def, Option.map_some]

theorem bcPlistIsect_entries (raw raw' : ℕ → ℤ) (ls : List Plist) :
    Libdsys.bcPlistIsect raw raw' ls =
    match addCounts ls 0 with
    | none => some none
    | some total =>
      if total < 0 then some none
      else (isectEntries raw raw' total.toNat ls).map fun x =>
        if x.1 = 0 then none else some ⟨x.2.take x.1, 0⟩ := by
  rcases hadd : addCounts ls 0 with _ | total
  · rw [Libdsys.bcPlistIsect, hadd]
    rfl
  · by_cases hneg : total < 0
    · simp only [Libdsys.bcPlistIsect, hadd, Option.bind_some, Libdsys.mallocInts, if_pos hneg,
        Option.bind_none]
    · simp only [Libdsys.bcPlistIsect, hadd, Option.bind_some, Libdsys.mallocInts, if_neg hneg,
        isectEntries, Option.bind_eq_bind, Option.map_eq_bind, Option.bind_assoc,
        Function.comp_def, apply_ite some]

/-- **Lists that a union and an intersection can be made of**: they are valid, and the `int` that
adds up their counts is no less than the number of different entries. -/
def PlistsFit (ls : List Plist) : Prop :=
  (∀ pl ∈ ls, pl.valid = 0) ∧ ∃ first others, ls = first :: others ∧
    ((unionRanks first others).length : ℤ) ≤ totalCount ls

/-- Some rank is met as often as there are lists, the first list counted once. -/
def MeetsAll (ls : List Plist) : Prop :=
  ∃ first others, ls = first :: others ∧
    ∃ r, asInt (occurrences first.plist (others.flatMap Plist.plist) r) = ls.length

variable {raw raw' : ℕ → ℤ} {ls others : List Plist} {first : Plist} {total : ℤ} {m : Mem σ}

theorem not_plistsFit_nil : ¬PlistsFit [] := by
  rintro ⟨-, first, others, hls, -⟩
  cases hls

theorem plistsFit_cons (hvalid : ∀ pl ∈ first :: others, pl.valid = 0) :
    PlistsFit (first :: others) ↔
      ((unionRanks first others).length : ℤ) ≤ totalCount (first :: others) := by
  constructor
  · rintro ⟨-, first', others', hls, hle⟩
    obtain ⟨rfl, rfl⟩ := List.cons.inj hls
    exact hle
  · exact fun hle => ⟨hvalid, first, others, rfl, hle⟩

/-- What is kept of an intersection. -/
theorem meetsAll_cons : MeetsAll (first :: others) ↔ isectRanks first others ≠ [] := by
  constructor
  · rintro ⟨first', others', hls, r, hr⟩
    obtain ⟨rfl, rfl⟩ := List.cons.inj hls
    exact List.ne_nil_of_mem (mem_isectRanks.mpr hr)
  · intro hne
    obtain ⟨r, hr⟩ := List.exists_mem_of_ne_nil _ hne
    exact ⟨first, others, rfl, r, mem_isectRanks.mp hr⟩

/-- Whether there are ranks for a union. -/
theorem isSome_unionEntries (raw : ℕ → ℤ) (hadd : addCounts ls 0 = some total) (hpos : ¬total < 0) :
    (unionEntries raw total.toNat ls).isSome = true ↔ PlistsFit ls := by
  have hvalid := isSome_addCounts.mp (Option.isSome_of_eq_some hadd)
  rcases ls with _ | ⟨first, others⟩
  · exact iff_of_false Bool.false_ne_true not_plistsFit_nil
  · have hentries := bcPlistUnion_entries raw (first :: others)
    rw [hadd, bcPlistUnion_eq raw hvalid] at hentries
    obtain rfl : totalCount (first :: others) = total :=
      Option.some.inj ((addCounts_valid hvalid).symm.trans hadd)
    simp only [if_neg hpos] at hentries
    rw [plistsFit_cons hvalid, ← Option.isSome_map (f := fun ranks => some (Plist.mk ranks 0)),
      ← hentries]
    split
    · next hle => exact iff_of_true rfl hle
    · next hle => exact iff_of_false Bool.false_ne_true hle

/-- Whether there are ranks for an intersection, and whether some are kept. -/
theorem isectEntries_cases (raw raw' : ℕ → ℤ) (hadd : addCounts ls 0 = some total)
    (hpos : ¬total < 0) :
    (¬PlistsFit ls ∧ isectEntries raw raw' total.toNat ls = none) ∨
    ∃ k entries, PlistsFit ls ∧ isectEntries raw raw' total.toNat ls = some (k, entries) ∧
      (k = 0 ↔ ¬MeetsAll ls) := by
  have hvalid := isSome_addCounts.mp (Option.isSome_of_eq_some hadd)
  rcases ls with _ | ⟨first, others⟩
  · exact .inl ⟨not_plistsFit_nil, rfl⟩
  · have hentries := bcPlistIsect_entries raw raw' (first :: others)
    rw [hadd, bcPlistIsect_eq raw raw' hvalid] at hentries
    obtain rfl : totalCount (first :: others) = total :=
      Option.some.inj ((addCounts_valid hvalid).symm.trans hadd)
    simp only [if_neg hpos] at hentries
    rw [plistsFit_cons hvalid, meetsAll_cons, not_not]
    split_ifs at hentries with hle hnil
    · obtain ⟨⟨k, entries⟩, hsome, hk⟩ := Option.map_eq_some_iff.mp hentries.symm
      refine .inr ⟨k, entries, hle, hsome, iff_of_true ?_ hnil⟩
      by_contra hne
      rw [if_neg hne] at hk
      cases hk
    · obtain ⟨⟨k, entries⟩, hsome, hk⟩ := Option.map_eq_some_iff.mp hentries.symm
      refine .inr ⟨k, entries, hle, hsome, iff_of_false ?_ hnil⟩
      rintro rfl
      cases hk
    · exact .inl ⟨hle, Option.map_eq_none_iff.mp hentries.symm⟩

/-! ## When something fails -/

/-- Lists that are not valid, or too many, do not fit. -/
theorem PlistsFit.addCounts_eq (h : PlistsFit ls) :
    addCounts ls 0 = some (totalCount ls) ∧ ¬totalCount ls < 0 := by
  obtain ⟨hvalid, first, others, rfl, hle⟩ := h
  exact ⟨addCounts_valid hvalid, by omega⟩

theorem ifNull_mallocInts (h : ¬total < 0) (undo : StateM (Mem σ) Unit)
    (f : ℕ → StateM (Mem σ) (Option (Option PlistBlocks))) (m : Mem σ) :
    ifNull (mallocInts total) undo f m =
      if m.fails m.calls = true then (none, (undo (m.after 1 [])).2)
      else f m.calls (m.after 1 []) := by
  rw [mallocInts, if_neg h, ifNull_malloc]

/-- The blocks that `n` calls returned, where one more was refused. -/
theorem granted_of_refused {n : ℕ} (hgrants : m.Grants n) (hfails : m.fails (m.calls + n) = true) :
    m.granted (n + 1) = List.range' m.calls n :=
  Mem.FailsAt.granted_eq ⟨hgrants, hfails⟩

/-- What a union and an intersection begin with cleans up: nothing is left to show but for lists
that are valid, with two blocks. -/
theorem cleansUp_of_late {α : Type} {x : StateM (Mem σ) (Option α)}
    {late : ℤ → Option α × Mem σ} {P : Prop}
    (hx : x m = if m.fails m.calls = true then (none, m.after 1 [])
      else match addCounts ls 0 with
      | none => (none, m.after 1 [m.calls])
      | some total =>
        if total < 0 then (none, m.after 1 [m.calls])
        else if m.fails (m.calls + 1) = true then (none, m.after 2 [m.calls])
        else late total)
    (hP : P → PlistsFit ls ∧ m.Grants 2)
    (hlate : ∀ total, addCounts ls 0 = some total → ¬total < 0 → m.Grants 2 →
      x m = late total → (CleansUp x m ↔ ¬P)) : CleansUp x m ↔ ¬P := by
  split at hx
  · next h0 =>
    rw [cleansUp_iff_of_none hx, granted_of_refused m.grants_zero h0]
    refine iff_of_true (.refl _) fun h => ?_
    simpa [h0] using (hP h).2 0 Nat.two_pos
  next h0 =>
  have hone : m.Grants 1 := Mem.grants_succ.mpr ⟨m.grants_zero, Bool.not_eq_true _ ▸ h0⟩
  split at hx
  · next hadd =>
    rw [cleansUp_iff_of_none hx, hone.granted_eq]
    refine iff_of_true (.refl _) fun h => ?_
    simp [(hP h).1.addCounts_eq.1] at hadd
  next total hadd =>
  split at hx
  · next hneg =>
    rw [cleansUp_iff_of_none hx, hone.granted_eq]
    refine iff_of_true (.refl _) fun h => ?_
    obtain ⟨hsum, hpos⟩ := (hP h).1.addCounts_eq
    obtain rfl := Option.some.inj (hsum.symm.trans hadd)
    exact hpos hneg
  next hneg =>
  split at hx
  · next h1 =>
    rw [cleansUp_iff_of_none hx, granted_of_refused hone h1]
    refine iff_of_true (.refl _) fun h => ?_
    simpa [h1] using (hP h).2 1 Nat.one_lt_two
  · next h1 =>
    exact hlate total hadd hneg (Mem.grants_succ.mpr ⟨hone, Bool.not_eq_true _ ▸ h1⟩) hx

/-- A union, call by call. -/
theorem bcPlistUnion_apply : bcPlistUnion raw ls m =
    if m.fails m.calls = true then (none, m.after 1 [])
    else match addCounts ls 0 with
    | none => (none, m.after 1 [m.calls])
    | some total =>
      if total < 0 then (none, m.after 1 [m.calls])
      else if m.fails (m.calls + 1) = true then (none, m.after 2 [m.calls])
      else match unionEntries raw total.toNat ls with
      | none => (some none, m.after 2 [])
      | some ranks =>
        if m.fails (m.calls + 2) = true then (none, m.after 3 [m.calls])
        else
          let (plist, m') := realloc (m.calls + 1) ranks.length (m.after 3 [m.calls])
          (some (some ⟨m.calls + 2, plist, ranks⟩), m') := by
  rw [bcPlistUnion, ifNull_malloc]
  congr 1
  rcases addCounts ls 0 with _ | total
  · rw [ifNull_none, free_after]
    rfl
  rw [ifNull_some]
  by_cases hneg : total < 0
  · rw [mallocInts, if_pos hneg, ifNull_none, free_after]
    simp [hneg]
  · rw [ifNull_mallocInts hneg, m.after_after, free_after]
    simp only [if_neg hneg]
    congr 1
    rcases unionEntries raw total.toNat ls with _ | ranks
    · rfl
    · dsimp only
      rw [ifNull_malloc, m.after_after, free_after]
      congr 1
      rw [free_bind_after]
      rfl

/-- **The clean-up of `bc_plist_union`** is right, unless the list it makes is not allocated. -/
theorem cleansUp_union_iff : CleansUp (bcPlistUnion raw ls) m ↔ ¬(PlistsFit ls ∧ m.FailsAt 2) := by
  refine cleansUp_of_late bcPlistUnion_apply (fun h => ⟨h.1, h.2.before⟩) ?_
  intro total hadd hpos htwo happly
  have hsome := isSome_unionEntries raw hadd hpos
  rcases hentries : unionEntries raw total.toNat ls with _ | ranks <;> rw [hentries] at happly hsome
  · refine iff_of_true (CleansUp.of_some happly) fun h => ?_
    simpa using hsome.mpr h.1
  dsimp only at happly
  split at happly
  · next h2 =>
    rw [cleansUp_iff_of_none happly, granted_of_refused htwo h2]
    refine iff_of_false (fun hperm => ?_) (not_not.mpr ⟨hsome.mp rfl, htwo, h2⟩)
    simpa using hperm.length_eq
  · next h2 => exact iff_of_true (CleansUp.of_some happly) fun h => h2 h.2.fails

/-- An intersection, call by call. -/
theorem bcPlistIsect_apply : bcPlistIsect raw raw' ls m =
    if m.fails m.calls = true then (none, m.after 1 [])
    else match addCounts ls 0 with
    | none => (none, m.after 1 [m.calls])
    | some total =>
      if total < 0 then (none, m.after 1 [m.calls])
      else if m.fails (m.calls + 1) = true then (none, m.after 2 [m.calls])
      else if m.fails (m.calls + 2) = true then (none, m.after 3 [m.calls + 1, m.calls])
      else match isectEntries raw raw' total.toNat ls with
      | none => (some none, m.after 3 [])
      | some (k, entries) =>
        if k = 0 then (none, m.after 3 [m.calls, m.calls + 2])
        else if m.fails (m.calls + 3) = true then
          (none, m.after 4 [m.calls, m.calls + 2, m.calls])
        else
          let (plist, m') := realloc (m.calls + 1) k (m.after 4 [m.calls, m.calls + 2])
          (some (some ⟨m.calls + 3, plist, entries.take k⟩), m') := by
  rw [bcPlistIsect, ifNull_malloc]
  congr 1
  rcases addCounts ls 0 with _ | total
  · rw [ifNull_none, free_after]
    rfl
  rw [ifNull_some]
  by_cases hneg : total < 0
  · rw [mallocInts, if_pos hneg, ifNull_none, free_after]
    simp [hneg]
  rw [ifNull_mallocInts hneg, m.after_after, free_after]
  simp only [if_neg hneg]
  congr 1
  rw [ifNull_mallocInts hneg, m.after_after]
  congr 1
  · rw [free_bind_after, free_after]
    rfl
  rcases isectEntries raw raw' total.toNat ls with _ | ⟨k, entries⟩
  · rfl
  dsimp only
  rw [free_bind_after, free_bind_after]
  by_cases hk : k = 0
  · rw [if_pos hk, if_pos hk]
    rfl
  · rw [if_neg hk, if_neg hk, ifNull_malloc, m.after_after, free_after]
    rfl

/-- **The clean-up of `bc_plist_isect`** is right, unless the list it makes is not allocated or
there is none to make. -/
theorem cleansUp_isect_iff : CleansUp (bcPlistIsect raw raw' ls) m ↔
    ¬(PlistsFit ls ∧ m.Grants 3 ∧ (MeetsAll ls → m.fails (m.calls + 3) = true)) := by
  refine cleansUp_of_late bcPlistIsect_apply
    (fun h => ⟨h.1, fun k hk => h.2.1 k (Nat.lt_succ_of_lt hk)⟩) ?_
  intro total hadd hpos htwo happly
  split at happly
  · next h2 =>
    rw [cleansUp_iff_of_none happly, granted_of_refused htwo h2]
    refine iff_of_true (.swap _ _ _) fun h => ?_
    simpa [h2] using h.2.1 2 (Nat.lt_succ_self 2)
  next h2 =>
  have hthree : m.Grants 3 := Mem.grants_succ.mpr ⟨htwo, Bool.not_eq_true _ ▸ h2⟩
  rcases isectEntries_cases raw raw' hadd hpos with
    ⟨hfit, hentries⟩ | ⟨k, entries, hfit, hentries, hk⟩ <;> rw [hentries] at happly
  · exact iff_of_true (CleansUp.of_some happly) fun h => hfit h.1
  dsimp only at happly
  split at happly
  · next hzero =>
    -- nothing is in all the lists, and `list` is forgotten
    rw [cleansUp_iff_of_none happly, hthree.granted_eq]
    refine iff_of_false (fun hperm => ?_)
      (not_not.mpr ⟨hfit, hthree, fun hmeets => absurd hmeets (hk.mp hzero)⟩)
    simpa using hperm.length_eq
  next hsome =>
  split at happly
  · next h3 =>
    -- `list` is forgotten, and `plptr` freed once more
    rw [cleansUp_iff_of_none happly, granted_of_refused hthree h3]
    refine iff_of_false (fun hperm => ?_) (not_not.mpr ⟨hfit, hthree, fun _ => h3⟩)
    simpa using hperm.nodup_iff.mpr List.nodup_range'
  · next h3 =>
    refine iff_of_true (CleansUp.of_some happly) fun h => h3 (h.2.2 ?_)
    by_contra hmeets
    exact hsome (hk.mpr hmeets)

end Libdsys.Alloc
