import Mathlib.Logic.Function.Basic
import Libdsys.Branch.PlistAlloc

/-!
# Branch/PlistOptional — the process lists that the library makes

A process makes up to seven lists when it starts, as its flags ask for, and registers each in a
table.  A list is registered before its ranks are allocated, and what cleans up goes by the table.

* `create_eq_zero_iff` — an error is an allocation that fails.
* `cleansTable_iff` — the clean-up is right where it has nothing to do.
* `cleaned_up_iff` — and what the other calls that make lists from lists clean up.
-/

open Machinery

namespace Libdsys.Alloc

/-- The entries of `__bc_optional_plists`, in the order they are made. -/
inductive OptionalPlist
  | xall
  | odd
  | even
  | pred
  | succ
  | all
  | self
deriving Repr, DecidableEq

/-- `__bc_optional_plists`. -/
abbrev OptionalTable := OptionalPlist → Option PlistBlocks

/-- `BC_EMEM`. -/
def bcEmem : ℤ := 13

variable {size : ℕ}

namespace OptionalPlist

/-- The table, first entry first. -/
def entries : List OptionalPlist := [xall, odd, even, pred, succ, all, self]

/-- `BC_PLIST_XALL` to `BC_PLIST_SELF`. -/
def flag : OptionalPlist → ℕ
  | xall => 0x2
  | odd => 0x4
  | even => 0x8
  | pred => 0x10
  | succ => 0x20
  | all => 0x40
  | self => 0x80

/-- The flag is set, and there are processes before, or after. -/
def wanted (flags : ℕ) (rank : Fin size) : OptionalPlist → Bool
  | pred => flags &&& pred.flag ≠ 0 ∧ (rank : ℕ) ≠ 0
  | succ => flags &&& succ.flag ≠ 0 ∧ (rank : ℕ) ≠ size - 1
  | l => flags &&& l.flag ≠ 0

/-- The entries that are allocated for its ranks. -/
def room (rank : Fin size) : OptionalPlist → ℕ
  | xall | odd | even => size - 1
  | pred => rank
  | succ => size - 1 - rank
  | all => size
  | self => 1

/-- The ranks its loop enters. -/
def ranks (rank : Fin size) : OptionalPlist → List ℕ
  | xall => (List.range size).filter (· ≠ rank)
  | odd => (List.range' 1 (size / 2) 2).filter (· ≠ rank)
  | even => (List.range' 0 ((size + 1) / 2) 2).filter (· ≠ rank)
  | pred => List.range rank
  | succ => List.range' (rank + 1) (size - (rank + 1))
  | all => List.range size
  | self => [↑rank]

/-- Its block is made smaller once the ranks are counted. -/
def shrinks : OptionalPlist → Bool
  | odd | even => true
  | _ => false

end OptionalPlist

open OptionalPlist

/-- An entry of the table is assigned. -/
def register (l : OptionalPlist) (e : Option PlistBlocks) : StateM (Mem OptionalTable) Unit :=
  fun m => ((), { m with rest := Function.update m.rest l e })

/-- The block of the ranks, made as large as they are where they were counted. -/
def shrink (rank : Fin size) (l : OptionalPlist) (plist : ℕ) :
    StateM (Mem OptionalTable) (Option ℕ) :=
  if l.shrinks then realloc plist (l.ranks rank).length else pure (some plist)

/-- One list of `__bc_optional_plists_create`. -/
def createOne (rank : Fin size) (l : OptionalPlist) : StateM (Mem OptionalTable) (Option Unit) :=
  ifNull malloc (register l none) fun pl => do
    register l (some ⟨pl, none, []⟩)
    ifNull malloc (free pl) fun plist => do
      let plist ← shrink rank l plist
      register l (some ⟨pl, plist, (l.ranks rank).map Int.ofNat⟩)
      pure (some ())

/-- The lists that are wanted, up to the first that cannot be made. -/
def createEach (flags : ℕ) (rank : Fin size) :
    List OptionalPlist → StateM (Mem OptionalTable) (Option Unit)
  | [] => pure (some ())
  | l :: ls =>
    if l.wanted flags rank then
      ifNull (createOne rank l) (pure ()) fun _ => createEach flags rank ls
    else createEach flags rank ls

/-- One entry of `__bc_optional_plists_destroy`: of a list that was freed, `stale` is read. -/
def destroyOne (stale : Option ℕ) (l : OptionalPlist) : StateM (Mem OptionalTable) Unit := fun m =>
  match m.rest l with
  | none => ((), m)
  | some e =>
    let plist := if e.pl ∈ m.freed then stale else e.plist
    ((), m.after 0 (plist.toList ++ [e.pl]))

/-- Its loop. -/
def destroyEach (stale : Option ℕ) : List OptionalPlist → StateM (Mem OptionalTable) Unit
  | [] => pure ()
  | l :: ls => do
    destroyOne stale l
    destroyEach stale ls

/-- `__bc_optional_plists_destroy`. -/
def optionalPlistsDestroy (stale : Option ℕ) : StateM (Mem OptionalTable) Unit :=
  destroyEach stale entries

/-- `__bc_optional_plists_create`. -/
def optionalPlistsCreate (stale : Option ℕ) (flags : ℕ) (rank : Fin size) :
    StateM (Mem OptionalTable) ℤ := do
  match ← createEach flags rank entries with
  | some _ => pure 0
  | none => do
    optionalPlistsDestroy stale
    pure bcEmem

/-- The call that makes the block of the ranks smaller. -/
def shrinkCalls (rank : Fin size) (l : OptionalPlist) : ℕ :=
  if l.shrinks = true ∧ (l.ranks rank).length ≠ 0 then 1 else 0

/-- The calls of `bc_malloc` that make the lists wanted, where `c` calls were made before. -/
def mallocCalls (flags : ℕ) (rank : Fin size) : List OptionalPlist → ℕ → List ℕ
  | [], _ => []
  | l :: ls, c =>
    if l.wanted flags rank then
      c :: (c + 1) :: mallocCalls flags rank ls (c + 2 + shrinkCalls rank l)
    else mallocCalls flags rank ls c

/-! ## One list -/

variable {flags : ℕ} {rank : Fin size} {l l' : OptionalPlist} {ls : List OptionalPlist}
  {m : Mem OptionalTable} {stale : Option ℕ}

/-- The record is not allocated. -/
theorem createOne_refused (h : m.fails m.calls = true) :
    createOne rank l m = (none, { m.after 1 [] with rest := Function.update m.rest l none }) := by
  rw [createOne, ifNull_malloc, if_pos h]
  rfl

theorem shrink_spec (rank : Fin size) (l : OptionalPlist) (b : ℕ) (m : Mem OptionalTable) :
    ∃ plist bs, shrink rank l b m = (plist, m.after (shrinkCalls rank l) bs) := by
  rw [shrink, shrinkCalls]
  cases l.shrinks with
  | false => exact ⟨some b, [], congrArg _ m.after_zero.symm⟩
  | true =>
    by_cases hnil : (l.ranks rank).length = 0
    · exact ⟨none, [b], by simp [realloc, hnil]⟩
    · cases hfails : m.fails m.calls with
      | true => exact ⟨none, [], by simp [realloc, hnil, hfails]⟩
      | false => exact ⟨some m.calls, [b], by simp [realloc, hnil, hfails]⟩

/-- **A list as it is made**: it is registered if its record is allocated, whatever else fails. -/
theorem createOne_granted (rank : Fin size) (l : OptionalPlist) (h : m.fails m.calls = false) :
    ∃ e m', e.pl = m.calls ∧
    createOne rank l m = (if m.fails (m.calls + 1) = true then none else some (), m') ∧
    m'.fails = m.fails ∧ m'.rest = Function.update m.rest l (some e) ∧
    (m.fails (m.calls + 1) = false → m'.calls = m.calls + 2 + shrinkCalls rank l) := by
  let reg : Mem OptionalTable :=
    { m.after 1 [] with rest := Function.update m.rest l (some ⟨m.calls, none, []⟩) }
  have hone : createOne rank l m = ifNull malloc (free m.calls) (fun plist => do
      let plist ← shrink rank l plist
      register l (some ⟨m.calls, plist, (l.ranks rank).map Int.ofNat⟩)
      pure (some ())) reg := by
    rw [createOne, ifNull_malloc, if_neg (by simp [h])]
    rfl
  rw [hone, ifNull_malloc, show reg.fails reg.calls = m.fails (m.calls + 1) from rfl]
  by_cases h1 : m.fails (m.calls + 1) = true
  · rw [if_pos h1, if_pos h1]
    exact ⟨⟨m.calls, none, []⟩, _, rfl, rfl, rfl, rfl, fun hfalse => by simp [h1] at hfalse⟩
  · rw [if_neg h1, if_neg h1]
    obtain ⟨plist, bs, hshrink⟩ := shrink_spec rank l reg.calls (reg.after 1 [])
    refine ⟨⟨m.calls, plist, (l.ranks rank).map Int.ofNat⟩,
      { (reg.after 1 []).after (shrinkCalls rank l) bs with
        rest := Function.update reg.rest l
          (some ⟨m.calls, plist, (l.ranks rank).map Int.ofNat⟩) }, rfl, ?_, rfl, ?_, fun _ => rfl⟩
    · exact congrArg (fun r : Option ℕ × Mem OptionalTable => (some (), { r.2 with
        rest := Function.update r.2.rest l
          (some ⟨m.calls, r.1, (l.ranks rank).map Int.ofNat⟩) })) hshrink
    · exact Function.update_idem _ _ _

/-! ## All the lists -/

theorem createEach_unwanted (h : ¬l.wanted flags rank = true) :
    createEach flags rank (l :: ls) = createEach flags rank ls := by
  rw [createEach, if_neg h]

/-- **What making one list can do**: the record fails, the ranks fail, or it is made. -/
theorem createEach_wanted (ls : List OptionalPlist) (m : Mem OptionalTable)
    (h : l.wanted flags rank = true) :
    (m.fails m.calls = true ∧ createEach flags rank (l :: ls) m =
      (none, { m.after 1 [] with rest := Function.update m.rest l none })) ∨
    m.fails m.calls = false ∧ ∃ e m', e.pl = m.calls ∧ m'.fails = m.fails ∧
      m'.rest = Function.update m.rest l (some e) ∧
      ((m.fails (m.calls + 1) = true ∧ createEach flags rank (l :: ls) m = (none, m')) ∨
        m.fails (m.calls + 1) = false ∧ m'.calls = m.calls + 2 + shrinkCalls rank l ∧
          createEach flags rank (l :: ls) m = createEach flags rank ls m') := by
  rw [createEach, if_pos h]
  cases h0 : m.fails m.calls with
  | true =>
    refine .inl ⟨rfl, ?_⟩
    rw [ifNull, createOne_refused h0]
    rfl
  | false =>
    obtain ⟨e, m', hpl, hone, hfails, hrest, hcalls⟩ := createOne_granted rank l h0
    refine .inr ⟨rfl, e, m', hpl, hfails, hrest, ?_⟩
    cases h1 : m.fails (m.calls + 1) with
    | true =>
      refine .inl ⟨rfl, ?_⟩
      rw [ifNull, hone, if_pos h1]
      rfl
    | false =>
      refine .inr ⟨rfl, hcalls h1, ?_⟩
      rw [ifNull, hone, if_neg (by simp [h1])]

/-- An entry that is not made again stays. -/
theorem createEach_rest (hl : l ∉ ls) :
    (createEach flags rank ls m).2.rest l = m.rest l := by
  induction ls generalizing m with
  | nil => rfl
  | cons l' ls ih =>
    obtain ⟨hne, hl⟩ := not_or.mp (List.mem_cons.not.mp hl)
    by_cases hwanted : l'.wanted flags rank = true
    · rcases createEach_wanted ls m hwanted with ⟨-, heq⟩ |
        ⟨-, e, m', -, -, hrest, ⟨-, heq⟩ | ⟨-, -, heq⟩⟩ <;> rw [heq]
      · exact Function.update_of_ne hne _ _
      · rw [hrest, Function.update_of_ne hne]
      · rw [ih hl, hrest, Function.update_of_ne hne]
    · rw [createEach_unwanted hwanted, ih hl]

/-- **An error is an allocation that fails**, of a record or of the ranks. -/
theorem createEach_none_iff (flags : ℕ) (rank : Fin size) (ls : List OptionalPlist)
    (m : Mem OptionalTable) : (createEach flags rank ls m).1 = none ↔
      ∃ c ∈ mallocCalls flags rank ls m.calls, m.fails c = true := by
  induction ls generalizing m with
  | nil => exact iff_of_false (Option.some_ne_none ()) (by simp [mallocCalls])
  | cons l ls ih =>
    by_cases hwanted : l.wanted flags rank = true
    · rw [mallocCalls, if_pos hwanted]
      rcases createEach_wanted ls m hwanted with ⟨h0, heq⟩ |
        ⟨h0, e, m', -, hfails, -, ⟨h1, heq⟩ | ⟨h1, hcalls, heq⟩⟩ <;> rw [heq]
      · simp [h0]
      · simp [h1]
      · simp [ih, h0, h1, hfails, hcalls]
    · rw [createEach_unwanted hwanted, ih, mallocCalls, if_neg hwanted]

/-- Something is registered when the first call does not fail, and some other does. -/
theorem registered_of_late (flags : ℕ) (rank : Fin size) (hnodup : ls.Nodup)
    (h : m.fails m.calls = false) (hnone : (createEach flags rank ls m).1 = none) :
    ∃ l e, (createEach flags rank ls m).2.rest l = some e := by
  induction ls generalizing m with
  | nil => cases hnone
  | cons l ls ih =>
    obtain ⟨hl, hnodup⟩ := List.nodup_cons.mp hnodup
    by_cases hwanted : l.wanted flags rank = true
    · refine ⟨l, ?_⟩
      rcases createEach_wanted ls m hwanted with ⟨h0, -⟩ |
        ⟨-, e, m', -, -, hrest, ⟨-, heq⟩ | ⟨-, -, heq⟩⟩
      · simp [h] at h0
      · exact ⟨e, by rw [heq, hrest, Function.update_self]⟩
      · exact ⟨e, by rw [heq, createEach_rest hl, hrest, Function.update_self]⟩
    · rw [createEach_unwanted hwanted] at hnone ⊢
      exact ih hnodup h hnone

/-- Nothing was made when the first call fails. -/
theorem createEach_refused (flags : ℕ) (rank : Fin size) (ls : List OptionalPlist)
    (h : m.fails m.calls = true) (hrest : m.rest = fun _ => none) :
    createEach flags rank ls m = (some (), m) ∨
      createEach flags rank ls m = (none, m.after 1 []) := by
  induction ls with
  | nil => exact .inl rfl
  | cons l ls ih =>
    by_cases hwanted : l.wanted flags rank = true
    · rcases createEach_wanted ls m hwanted with ⟨-, heq⟩ | ⟨h0, -⟩
      · have hupdate : Function.update m.rest l none = m.rest :=
          Function.update_eq_self_iff.mpr (congrFun hrest l).symm
        rw [heq, hupdate]
        exact .inr rfl
      · simp [h] at h0
    · rw [createEach_unwanted hwanted]
      exact ih

/-! ## What cleans up -/

theorem destroyOne_rest : (destroyOne stale l m).2.rest = m.rest := by
  rw [destroyOne]
  split <;> rfl

theorem destroyOne_freed (stale : Option ℕ) (l : OptionalPlist) (m : Mem OptionalTable) :
    ∃ bs, (destroyOne stale l m).2.freed = m.freed ++ bs ∧
      ∀ e, m.rest l = some e → e.pl ∈ bs := by
  rw [destroyOne]
  split
  · next hnone => exact ⟨[], (List.append_nil _).symm, fun e he => by simp [he] at hnone⟩
  · next e he =>
    refine ⟨_, rfl, fun e' he' => ?_⟩
    obtain rfl := Option.some.inj (he'.symm.trans he)
    exact List.mem_append_right _ (List.mem_singleton_self _)

theorem destroyEach_cons (stale : Option ℕ) (l : OptionalPlist) (ls : List OptionalPlist)
    (m : Mem OptionalTable) :
    destroyEach stale (l :: ls) m = destroyEach stale ls (destroyOne stale l m).2 := rfl

theorem destroyEach_registered (stale : Option ℕ) (ls : List OptionalPlist)
    (m : Mem OptionalTable) : (destroyEach stale ls m).2.rest = m.rest ∧
      (∀ b ∈ m.freed, b ∈ (destroyEach stale ls m).2.freed) ∧
      ∀ l ∈ ls, ∀ e, m.rest l = some e → e.pl ∈ (destroyEach stale ls m).2.freed := by
  induction ls generalizing m with
  | nil => exact ⟨rfl, fun _ hb => hb, fun l hl => absurd hl List.not_mem_nil⟩
  | cons l ls ih =>
    rw [destroyEach_cons]
    obtain ⟨hrest, hkept, hfreed⟩ := ih (destroyOne stale l m).2
    obtain ⟨bs, happend, hbs⟩ := destroyOne_freed stale l m
    rw [destroyOne_rest] at hrest hfreed
    rw [happend] at hkept
    refine ⟨hrest, fun b hb => hkept b (List.mem_append_left _ hb), ?_⟩
    rintro l' hl' e he
    rcases List.mem_cons.mp hl' with rfl | hl'
    · exact hkept _ (List.mem_append_right _ (hbs e he))
    · exact hfreed l' hl' e he

/-- **What cleans up leaves the table as it is**, with every list of it freed. -/
theorem optionalPlistsDestroy_registered (stale : Option ℕ) (m : Mem OptionalTable) :
    (optionalPlistsDestroy stale m).2.rest = m.rest ∧
      ∀ l e, m.rest l = some e → e.pl ∈ (optionalPlistsDestroy stale m).2.freed := by
  obtain ⟨hrest, -, hfreed⟩ := destroyEach_registered stale OptionalPlist.entries m
  rw [optionalPlistsDestroy]
  exact ⟨hrest, fun l => hfreed l (by cases l <;> decide)⟩

theorem destroyOne_none (h : m.rest = fun _ => none) : destroyOne stale l m = ((), m) := by
  rw [destroyOne, h]

/-- There is nothing to clean up where nothing is registered. -/
theorem destroyEach_none (h : m.rest = fun _ => none) : destroyEach stale ls m = ((), m) := by
  induction ls with
  | nil => rfl
  | cons l ls ih => rw [destroyEach_cons, destroyOne_none h, ih]

/-- **Cleaned up on an error**: the blocks given are freed, each once, and no other; and no list
that was freed is left in the table. -/
def CleansTable (x : StateM (Mem OptionalTable) ℤ) (m : Mem OptionalTable) : Prop :=
  (x m).1 ≠ 0 → m.Cleaned (x m).2 ∧ ∀ l e, (x m).2.rest l = some e → e.pl ∉ (x m).2.freed

theorem create_of_none {m' : Mem OptionalTable}
    (h : createEach flags rank OptionalPlist.entries m = (none, m')) :
    optionalPlistsCreate stale flags rank m = (bcEmem, (optionalPlistsDestroy stale m').2) := by
  simp only [optionalPlistsCreate, bind, StateT.bind, h]
  rcases optionalPlistsDestroy stale m' with ⟨⟨⟩, m''⟩
  rfl

theorem create_of_some {m' : Mem OptionalTable}
    (h : createEach flags rank OptionalPlist.entries m = (some (), m')) :
    optionalPlistsCreate stale flags rank m = (0, m') := by
  simp only [optionalPlistsCreate, bind, StateT.bind, h]
  rfl

/-- **The lists are made exactly when** none of their allocations fails. -/
theorem create_eq_zero_iff : (optionalPlistsCreate stale flags rank m).1 = 0 ↔
    ∀ c ∈ mallocCalls flags rank OptionalPlist.entries m.calls, m.fails c = false := by
  have hnone := createEach_none_iff flags rank OptionalPlist.entries m
  rcases heach : createEach flags rank OptionalPlist.entries m with ⟨_ | ⟨⟩, m'⟩
  · rw [heach] at hnone
    obtain ⟨c, hc, hfails⟩ := hnone.mp rfl
    rw [create_of_none heach]
    refine iff_of_false (show bcEmem ≠ 0 by decide) fun hall => ?_
    simp [hall c hc] at hfails
  · rw [heach] at hnone
    rw [create_of_some heach]
    refine iff_of_true rfl fun c hc => ?_
    by_contra hfails
    cases hnone.mpr ⟨c, hc, (Bool.not_eq_false _).mp hfails⟩

/-- Nothing was registered where the first allocation fails. -/
theorem cleansTable_of_refused (h : m.rest = fun _ => none) (h0 : m.fails m.calls = true) :
    CleansTable (optionalPlistsCreate stale flags rank) m := by
  intro herror
  rcases createEach_refused flags rank OptionalPlist.entries h0 h with heach | heach
  · rw [create_of_some heach] at herror
    exact absurd rfl herror
  · rw [create_of_none heach, optionalPlistsDestroy, destroyEach_none (m := m.after 1 []) h,
      Mem.cleaned_after, granted_of_refused m.grants_zero h0]
    exact ⟨.refl _, fun l e he => by simp [Mem.after, h] at he⟩

/-- Where a later one fails, some list that was freed stays registered. -/
theorem not_cleansTable_of_late (h0 : m.fails m.calls = false)
    (herror : (optionalPlistsCreate stale flags rank m).1 ≠ 0) :
    ¬CleansTable (optionalPlistsCreate stale flags rank) m := by
  intro hclean
  obtain ⟨-, htable⟩ := hclean herror
  rcases heach : createEach flags rank OptionalPlist.entries m with ⟨_ | ⟨⟩, m'⟩
  · have hnone : (createEach flags rank OptionalPlist.entries m).1 = none := by rw [heach]
    obtain ⟨l, e, he⟩ := registered_of_late flags rank (by decide) h0 hnone
    rw [heach] at he
    obtain ⟨hrest, hfreed⟩ := optionalPlistsDestroy_registered stale m'
    have hmem := hfreed l e he
    rw [← hrest] at he
    rw [create_of_none heach] at htable
    dsimp only at htable
    exact htable l e he hmem
  · rw [create_of_some heach] at herror
    exact herror rfl

/-- **The clean-up of `__bc_optional_plists_create`** is right where the first allocation fails, as
nothing was registered then, and where none does. -/
theorem cleansTable_iff (h : m.rest = fun _ => none) :
    CleansTable (optionalPlistsCreate stale flags rank) m ↔
      m.fails m.calls = true ∨
        ∀ c ∈ mallocCalls flags rank OptionalPlist.entries m.calls, m.fails c = false := by
  rw [← create_eq_zero_iff]
  constructor
  · intro hclean
    by_contra! hlate
    exact not_cleansTable_of_late ((Bool.not_eq_true _).mp hlate.1) hlate.2 hclean
  · rintro (h0 | hzero)
    · exact cleansTable_of_refused h h0
    · exact fun herror => absurd hzero herror

/-! ## The three of them -/

/-- **When process lists clean up**, whatever fails.  A union does not where the list it makes is
the first that is not allocated; an intersection does not there, nor where it is empty; and the
lists the library makes are cleaned up where there is nothing to clean up. -/
theorem cleaned_up_iff {σ : Type} (raw raw' : ℕ → ℤ) (ls : List Plist) (m : Mem σ)
    (stale : Option ℕ) (flags : ℕ) (rank : Fin size) (fails : ℕ → Bool) (calls : ℕ)
    (freed : List ℕ) :
    (CleansUp (bcPlistUnion raw ls) m ↔ ¬(PlistsFit ls ∧ m.FailsAt 2)) ∧
    (CleansUp (bcPlistIsect raw raw' ls) m ↔
      ¬(PlistsFit ls ∧ m.Grants 3 ∧ (MeetsAll ls → m.fails (m.calls + 3) = true))) ∧
    (CleansTable (optionalPlistsCreate stale flags rank) ⟨fails, calls, freed, fun _ => none⟩ ↔
      fails calls = true ∨
        ∀ c ∈ mallocCalls flags rank OptionalPlist.entries calls, fails c = false) :=
  ⟨cleansUp_union_iff, cleansUp_isect_iff, cleansTable_iff rfl⟩

/-- One list, of the first process: its union is not allocated, nor is its intersection; and of two
lists that the library makes, the second is not. -/
theorem left_behind :
    ¬CleansUp (bcPlistUnion (fun _ => 0) [⟨[0], 0⟩]) (⟨(· == 2), 0, [], ()⟩ : Mem Unit) ∧
    ¬CleansUp (bcPlistIsect (fun _ => 0) (fun _ => 0) [⟨[0], 0⟩])
      (⟨(· == 3), 0, [], ()⟩ : Mem Unit) ∧
    ¬CleansTable (optionalPlistsCreate none 0xc0 (0 : Fin 2))
      ⟨(· == 2), 0, [], fun _ => none⟩ := by
  refine ⟨fun h => ?_, fun h => ?_, fun h => ?_⟩
  · obtain ⟨new, hfreed, hperm⟩ := h rfl
    obtain rfl : [0] = new := hfreed
    exact absurd hperm.length_eq (by decide)
  · obtain ⟨new, hfreed, hperm⟩ := h rfl
    obtain rfl : [0, 2, 0] = new := hfreed
    exact absurd (hperm.mem_iff (a := 1)) (by decide)
  · obtain ⟨-, htable⟩ := h (by decide +kernel)
    exact htable .all ⟨0, some 1, [0, 1]⟩ (by decide +kernel) (by decide +kernel)

end Libdsys.Alloc
