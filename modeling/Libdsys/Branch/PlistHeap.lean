import Mathlib.Data.List.Sort
import Libdsys.Branch.PlistSets
import Libdsys.Branch.Calls
import Libdsys.Machinery.Runs

/-!
# Branch/PlistHeap — process lists as they are made, set, used and destroyed

A process list is made by one of seven calls, and counts who may still use it: the user, who has a
handle on it until it is destroyed, and the channels over it.  `bc_plist_set` goes by that count.

* `PlistHeap.step` — the calls of a process that make, change or destroy process lists.
* `PlistHeap.step_cases` — what such a call can do to the lists that are there.
-/

open Machinery

namespace Libdsys

/-- `bc_plist_t`, how often it was freed, and whether the user still has a handle on it. -/
structure PlistCell where
  pl : Plist
  /-- Its `type` is `__BC_PLIST_CUST`. -/
  custom : Bool
  rc : ℤ
  frees : ℕ
  handle : Bool
deriving Repr, DecidableEq

/-- `bc_chan_t`, as far as it uses a process list. -/
structure PlistUser where
  plist : ℕ
  /-- Its `mode` is `__BC_CONSUMER`. -/
  consumer : Bool
  live : Bool
  /-- Its `bc_channel_t` was released with one of its links. -/
  released : Bool
deriving Repr, DecidableEq

/-- What `bc->channel` points to is freed by the time `bc_chan_destroy` reads `bc->channel->dtype`:
a source has freed it just before. -/
def PlistUser.dangling (bc : PlistUser) : Bool := bc.consumer || bc.released

namespace PlistCell

/-- A list as every call that makes one leaves it. -/
def fresh (pl : Plist) : PlistCell := ⟨pl, true, 1, 0, true⟩

/-- `__bc_internal_plist_ref`. -/
def ref (r : PlistCell) : PlistCell := if r.custom then { r with rc := intAdd r.rc 1 } else r

/-- `__bc_internal_plist_destroy`. -/
def destroy (r : PlistCell) : PlistCell :=
  if r.custom then
    let rc := intAdd r.rc (-1)
    { r with rc, frees := if rc = 0 then r.frees + 1 else r.frees }
  else r

/-- What `bc_chan_destroy` does to the list of a channel.  Where it reads a record that is freed, it
does not come to the list. -/
def chanDestroy (r : PlistCell) (bc : PlistUser) : PlistCell :=
  if bc.dangling then r else r.destroy

/-- `bc_plist_set`, with what it returns; `none` is an access outside the entries. -/
def set (r : PlistCell) (loc value : ℤ) : Option (ℤ × PlistCell) :=
  if loc > r.pl.plist.length then some (bcEival, r)
  else if loc < 0 then none
  else do
    let entry ← r.pl.plist[loc.toNat]?
    if entry = -1 then
      let valid := intAdd r.pl.valid (-1)
      some (valid, { r with pl := ⟨r.pl.plist.set loc.toNat value, valid⟩ })
    else if r.rc > 1 then some (0, r)
    else some (0, { r with pl := ⟨r.pl.plist.set loc.toNat value, r.pl.valid⟩ })

@[simp] theorem pl_ref (r : PlistCell) : r.ref.pl = r.pl := by
  rw [ref]
  split <;> rfl

@[simp] theorem pl_destroy (r : PlistCell) : r.destroy.pl = r.pl := by
  rw [destroy]
  split <;> rfl

theorem destroy_of_custom {r : PlistCell} (h : r.custom = true) : r.destroy =
    { r with
      rc := intAdd r.rc (-1)
      frees := if intAdd r.rc (-1) = 0 then r.frees + 1 else r.frees } :=
  if_pos h

@[simp] theorem custom_ref (r : PlistCell) : r.ref.custom = r.custom := by
  rw [ref]
  split <;> rfl

@[simp] theorem custom_destroy (r : PlistCell) : r.destroy.custom = r.custom := by
  rw [destroy]
  split <;> rfl

@[simp] theorem frees_ref (r : PlistCell) : r.ref.frees = r.frees := by
  rw [ref]
  split <;> rfl

theorem frees_le_destroy (r : PlistCell) : r.frees ≤ r.destroy.frees := by
  rw [destroy]
  split
  · dsimp only
    split
    · exact Nat.le_succ _
    · exact Nat.le_refl _
  · exact Nat.le_refl _

@[simp] theorem pl_chanDestroy (r : PlistCell) (bc : PlistUser) :
    (r.chanDestroy bc).pl = r.pl := by
  rw [chanDestroy]
  split
  · rfl
  · exact pl_destroy r

@[simp] theorem custom_chanDestroy (r : PlistCell) (bc : PlistUser) :
    (r.chanDestroy bc).custom = r.custom := by
  rw [chanDestroy]
  split
  · rfl
  · exact custom_destroy r

theorem frees_le_chanDestroy (r : PlistCell) (bc : PlistUser) :
    r.frees ≤ (r.chanDestroy bc).frees := by
  rw [chanDestroy]
  split
  · exact Nat.le_refl _
  · exact frees_le_destroy r

end PlistCell

open PlistCell

/-! ## The calls that make lists -/

/-- `while (s < e) pl->plist[j++] = s++`, with `n` rounds to go. -/
def fillUpTo : ℕ → ℤ → ℕ → List ℤ → Option (ℤ × ℕ × List ℤ)
  | 0, s, j, plist => some (s, j, plist)
  | n + 1, s, j, plist => do
    let plist ← writeAt plist j [s]
    fillUpTo n (s + 1) (j + 1) plist

/-- The loop that enters the values between any consecutive pair. -/
def fillBetween : List ℤ → ℤ → ℕ → List ℤ → Option (ℤ × ℕ × List ℤ)
  | [], s, j, plist => some (s, j, plist)
  | e :: args, s, j, plist => do
    let (s, j, plist) ← fillUpTo (e - s).toNat s j plist
    fillBetween args (s + 1) j plist

/-- `compare` finds that `a` is not behind `b`. -/
def compareLe (a b : ℤ) : Bool := intAdd a (-b) ≤ 0

/-- `bc_plist_create` of a negative count, among `size` processes; `valid` and `raw` are what the
memory happens to hold. -/
def bcPlistCreateExcept (size : ℕ) (valid : ℤ) (raw : ℕ → ℤ) (args : List ℤ) :
    Option (Option Plist) :=
  match mallocInts raw (size - args.length) with
  | none => some none
  | some plist => do
    let (s, j, plist) ← fillBetween (args.insertionSort (compareLe · ·)) 0 0 plist
    let (_, _, plist) ← fillUpTo (size - s).toNat s j plist
    some (some ⟨plist, valid⟩)

/-- `bc_plist_create_empty`. -/
def bcPlistCreateEmpty (count : ℤ) : Option Plist :=
  if count ≤ 0 then none else some ⟨List.replicate count.toNat (-1), count⟩

/-- `for (j = 0; j < per_plist; j++) bc_plist_set(plptr[i], j, pl->plist[cursor++])`, with `n`
rounds to go. -/
def copyEntries (src : List ℤ) : ℕ → ℕ → ℕ → PlistCell → Option (PlistCell × ℕ)
  | 0, _, cursor, r => some (r, cursor)
  | n + 1, j, cursor, r => do
    let value ← src[cursor]?
    let (_, r) ← r.set j value
    copyEntries src n (j + 1) (cursor + 1) r

/-- A list of `per` entries, filled from the cursor on. -/
def fillPart (src : List ℤ) (per : ℤ) (cursor : ℕ) : Option (Option PlistCell × ℕ) :=
  match bcPlistCreateEmpty per with
  | none => some (none, cursor)
  | some pl => do
    let (r, cursor) ← copyEntries src per.toNat 0 cursor (fresh pl)
    some (some r, cursor)

/-- The loop of `__bc_plist_equal_division`, with `k` lists to go: what it stores in `plptr`. -/
def fillParts (src : List ℤ) (per : ℤ) :
    ℕ → ℤ → ℕ → Option (List (ℤ × Option PlistCell) × ℕ)
  | 0, _, cursor => some ([], cursor)
  | k + 1, i, cursor => do
    let (r, cursor) ← fillPart src per cursor
    let (parts, cursor) ← fillParts src per k (i + 1) cursor
    some ((i, r) :: parts, cursor)

/-- `__bc_plist_equal_division`: what it returns, and what it stores in `plptr`; `none` is a
division by zero or an access outside the entries. -/
def bcPlistEqualDivision (pl : Plist) (num : ℤ) : Option (ℤ × List (ℤ × Option PlistCell)) :=
  if num > pl.plist.length then some (-1, [])
  else if num = 0 then none
  else do
    let per := (pl.plist.length : ℤ).tdiv num
    let extra := (pl.plist.length : ℤ).tmod num
    let k := if extra ≠ 0 then intAdd num (-1) else num
    let (parts, cursor) ← fillParts pl.plist per k.toNat 0 0
    if extra ≠ 0 then do
      let (r, _) ← fillPart pl.plist (per + extra) cursor
      some (0, parts ++ [(k, r)])
    else some (0, parts)

/-- The calls that make process lists, with the lists they are made from. -/
inductive PlistMake
  /-- `bc_plist_create` of a positive count. -/
  | create (valid : ℤ) (ranks : List ℤ)
  /-- `bc_plist_create` of a negative count. -/
  | createExcept (valid : ℤ) (raw : ℕ → ℤ) (args : List ℤ)
  | createEmpty (count : ℤ)
  /-- `bc_plist_divide` with `BC_DIVPL_EQUAL`, and room for `num` lists. -/
  | divide (l : ℕ) (num : ℤ)
  | union (raw : ℕ → ℤ) (ls : List ℕ)
  | isect (raw raw' : ℕ → ℤ) (ls : List ℕ)
  | diff (a b : ℕ)

inductive PlistAct
  | make (m : PlistMake)
  | set (l : ℕ) (loc value : ℤ)
  /-- `bc_sink_create` or `bc_src_create`. -/
  | chanCreate (l : ℕ) (consumer : Bool)
  | chanDestroy (c : ℕ)
  /-- A service thread releases the `bc_channel_t` of a sink, at a KILL. -/
  | release (c : ℕ)
  | plistDestroy (l : ℕ)

/-- The process lists of a process, and its channels. -/
structure PlistHeap where
  lists : List PlistCell
  chans : List PlistUser

namespace PlistHeap

/-- A call of `bc_chan_destroy` has read a record that was freed. -/
def faulted (s : PlistHeap) : Bool := s.chans.any fun bc => bc.dangling && !bc.live

/-- The list a pointer leads to, unless it was freed or there is no process any more. -/
def at? (s : PlistHeap) (l : ℕ) : Option PlistCell :=
  s.lists[l]?.filter fun r => r.frees = 0 && !s.faulted

/-- The lists that are made among `size` processes.  Counts are `int`s. -/
def made (size : ℕ) (s : PlistHeap) : PlistMake → Option (List PlistCell)
  | .create valid ranks => do
    guard (ranks.length < 2 ^ 31)
    some ((bcPlistCreate valid ranks).toList.map fresh)
  | .createExcept valid raw args => do
    guard (args ≠ [] ∧ size < 2 ^ 31)
    let pl ← bcPlistCreateExcept size valid raw args
    some (pl.toList.map fresh)
  | .createEmpty count => do
    guard (count < 2 ^ 31)
    some ((bcPlistCreateEmpty count).toList.map fresh)
  | .divide l num => do
    let r ← s.at? l
    let (_, parts) ← bcPlistEqualDivision r.pl num
    guard (∀ p ∈ parts, 0 ≤ p.1 ∧ p.1 < num)
    some (parts.filterMap Prod.snd)
  | .union raw ls => do
    let rs ← ls.mapM s.at?
    let pl ← bcPlistUnion raw (rs.map pl)
    some (pl.toList.map fresh)
  | .isect raw raw' ls => do
    let rs ← ls.mapM s.at?
    let pl ← bcPlistIsect raw raw' (rs.map pl)
    some (pl.toList.map fresh)
  | .diff a b => do
    let ra ← s.at? a
    let rb ← s.at? b
    some ((bcPlistDiff ra.pl rb.pl).toList.map fresh)

/-- One call; `none` also where it is given a list that was freed, or goes outside a block. -/
def call (size : ℕ) (s : PlistHeap) : PlistAct → Option PlistHeap
  | .make m => do
    let rs ← s.made size m
    some { s with lists := s.lists ++ rs }
  | .set l loc value => do
    let r ← s.at? l
    let (_, r) ← r.set loc value
    some { s with lists := s.lists.set l r }
  | .chanCreate l consumer => do
    let r ← s.at? l
    some ⟨s.lists.set l r.ref, s.chans ++ [⟨l, consumer, true, false⟩]⟩
  | .chanDestroy c => do
    let bc ← s.chans[c]?
    guard (bc.live = true)
    let r ← s.lists[bc.plist]?
    -- a consumer sends to the ranks in the list
    guard (bc.consumer = true → r.frees = 0)
    some ⟨s.lists.set bc.plist (r.chanDestroy bc), s.chans.set c { bc with live := false }⟩
  | .release c => do
    let bc ← s.chans[c]?
    guard (bc.live = true ∧ bc.consumer = false)
    some { s with chans := s.chans.set c { bc with released := true } }
  | .plistDestroy l => do
    let r ← s.lists[l]?
    some { s with lists := s.lists.set l { r.destroy with handle := false } }

/-- One call of a process that has not come to its end. -/
def step (size : ℕ) (s : PlistHeap) (a : PlistAct) : Option PlistHeap :=
  if s.faulted then none else s.call size a

/-- How many channels over a list are not destroyed. -/
def live (s : PlistHeap) (l : ℕ) : ℕ := s.chans.countP fun bc => bc.live && bc.plist == l

/-- Before any call: the lists of the library itself. -/
structure Initial (s : PlistHeap) : Prop where
  noChans : s.chans = []
  internal : ∀ r ∈ s.lists, r.custom = false
  filled : ∀ r ∈ s.lists, r.pl.valid = 0 ∧ -1 ∉ r.pl.plist
  small : ∀ r ∈ s.lists, r.pl.plist.length < 2 ^ 31

end PlistHeap

/-! ## What the calls do -/

/-- **What `bc_plist_set` does** — nothing, or it stores the value: in an entry that holds no rank,
which it counts, or over another where nobody else uses the list. -/
theorem PlistCell.set_cases {r r' : PlistCell} {loc value code : ℤ}
    (h : r.set loc value = some (code, r')) :
    (r' = r ∧ ((r.pl.plist.length : ℤ) < loc ∨ 1 < r.rc ∧ r.pl.plist[loc.toNat]? ≠ some (-1))) ∨
    ∃ (i : ℕ) (hi : i < r.pl.plist.length), loc = i ∧ (r.pl.plist[i] = -1 ∨ ¬1 < r.rc) ∧
      r' = { r with pl := ⟨r.pl.plist.set i value,
        if r.pl.plist[i] = -1 then intAdd r.pl.valid (-1) else r.pl.valid⟩ } := by
  rw [PlistCell.set] at h
  by_cases hlarge : loc > r.pl.plist.length
  · rw [if_pos hlarge, Option.some.injEq, Prod.mk.injEq] at h
    exact .inl ⟨h.2.symm, .inl hlarge⟩
  rw [if_neg hlarge, Option.ite_none_left_eq_some, Option.bind_eq_bind,
    Option.bind_eq_some_iff] at h
  obtain ⟨hneg, entry, hentry, h⟩ := h
  obtain ⟨hi, rfl⟩ := List.getElem?_eq_some_iff.mp hentry
  split_ifs at h with hempty hused
  all_goals
    simp only [Option.some.injEq, Prod.mk.injEq] at h
    obtain ⟨-, rfl⟩ := h
  · exact .inr ⟨_, hi, by omega, .inl hempty, by rw [if_pos hempty]⟩
  · exact .inl ⟨rfl, .inr ⟨hused, by simpa [hentry] using hempty⟩⟩
  · exact .inr ⟨_, hi, by omega, .inr hused, by rw [if_neg hempty]⟩

theorem PlistCell.set_frame {r r' : PlistCell} {loc value code : ℤ}
    (h : r.set loc value = some (code, r')) : ∃ pl, r' = { r with pl } := by
  rcases set_cases h with ⟨rfl, -⟩ | ⟨i, -, -, -, rfl⟩
  · exact ⟨_, rfl⟩
  · exact ⟨_, rfl⟩

theorem copyEntries_frame {src : List ℤ} {n j cursor cursor' : ℕ} {r r' : PlistCell}
    (h : copyEntries src n j cursor r = some (r', cursor')) : ∃ pl, r' = { r with pl } := by
  induction n generalizing j cursor r with
  | zero =>
    obtain ⟨rfl, -⟩ := Prod.mk.inj (Option.some.inj h)
    exact ⟨_, rfl⟩
  | succ n ih =>
    simp only [copyEntries, Option.bind_eq_bind, Option.bind_eq_some_iff, Prod.exists] at h
    obtain ⟨value, -, code, r₁, hset, h⟩ := h
    obtain ⟨pl₁, rfl⟩ := PlistCell.set_frame hset
    obtain ⟨pl, rfl⟩ := ih h
    exact ⟨pl, rfl⟩

theorem fillPart_fresh {src : List ℤ} {per : ℤ} {cursor cursor' : ℕ} {o : Option PlistCell}
    (h : fillPart src per cursor = some (o, cursor')) : ∀ r, o = some r → ∃ pl, r = fresh pl := by
  rw [fillPart] at h
  split at h
  · obtain ⟨rfl, -⟩ := Prod.mk.inj (Option.some.inj h)
    exact nofun
  · simp only [Option.bind_eq_bind, Option.bind_eq_some_iff, Option.some.injEq, Prod.mk.injEq,
      Prod.exists] at h
    obtain ⟨r', _, hcopy, rfl, rfl⟩ := h
    rintro r ⟨⟩
    exact copyEntries_frame hcopy

theorem fillParts_fresh {src : List ℤ} {per i : ℤ} {k cursor cursor' : ℕ}
    {ps : List (ℤ × Option PlistCell)} (h : fillParts src per k i cursor = some (ps, cursor')) :
    ∀ p ∈ ps, ∀ r, p.2 = some r → ∃ pl, r = fresh pl := by
  induction k generalizing i cursor ps with
  | zero =>
    obtain ⟨rfl, -⟩ := Prod.mk.inj (Option.some.inj h)
    exact List.forall_mem_nil _
  | succ k ih =>
    simp only [fillParts, Option.bind_eq_bind, Option.bind_eq_some_iff, Option.some.injEq,
      Prod.mk.injEq, Prod.exists] at h
    obtain ⟨o, _, hpart, ps', _, hrest, rfl, rfl⟩ := h
    exact List.forall_mem_cons.mpr ⟨fillPart_fresh hpart, ih hrest⟩

theorem division_fresh {pl : Plist} {num code : ℤ} {ps : List (ℤ × Option PlistCell)}
    (h : bcPlistEqualDivision pl num = some (code, ps)) :
    ∀ p ∈ ps, ∀ r, p.2 = some r → ∃ pl, r = fresh pl := by
  rw [bcPlistEqualDivision] at h
  split at h
  · obtain ⟨-, rfl⟩ := Prod.mk.inj (Option.some.inj h)
    exact List.forall_mem_nil _
  rw [Option.ite_none_left_eq_some] at h
  simp only [Option.bind_eq_bind, Option.bind_eq_some_iff, Prod.exists] at h
  obtain ⟨-, ps', cursor, hparts, h⟩ := h
  split at h
  · obtain ⟨⟨o, cursor'⟩, hpart, h⟩ := Option.bind_eq_some_iff.mp h
    obtain ⟨-, rfl⟩ := Prod.mk.inj (Option.some.inj h)
    refine List.forall_mem_append.mpr ⟨fillParts_fresh hparts, ?_⟩
    exact List.forall_mem_singleton.mpr (fillPart_fresh hpart)
  · obtain ⟨-, rfl⟩ := Prod.mk.inj (Option.some.inj h)
    exact fillParts_fresh hparts

namespace PlistHeap

variable {size : ℕ} {s t : PlistHeap} {l : ℕ} {r : PlistCell}

/-- **What is made is fresh.** -/
theorem made_fresh {m : PlistMake} {rs : List PlistCell} (h : s.made size m = some rs) :
    ∀ r ∈ rs, ∃ pl, r = fresh pl := by
  have hlist : ∀ o : Option Plist, ∀ r ∈ o.toList.map fresh, ∃ pl, r = fresh pl := by
    intro o r hr
    obtain ⟨pl, -, rfl⟩ := List.mem_map.mp hr
    exact ⟨pl, rfl⟩
  rcases m with ⟨valid, ranks⟩ | ⟨valid, raw, args⟩ | count | ⟨l, num⟩ | ⟨raw, ls⟩ |
    ⟨raw, raw', ls⟩ | ⟨a, b⟩ <;>
    simp only [made, Option.bind_eq_bind, Option.bind_eq_some_iff, Option.some.injEq,
      Prod.exists] at h
  · obtain ⟨-, -, rfl⟩ := h
    exact hlist _
  · obtain ⟨-, -, o, -, rfl⟩ := h
    exact hlist _
  · obtain ⟨-, -, rfl⟩ := h
    exact hlist _
  · obtain ⟨r, -, code, ps, hdivide, -, -, rfl⟩ := h
    intro r' hr'
    obtain ⟨p, hp, hr'⟩ := List.mem_filterMap.mp hr'
    exact division_fresh hdivide p hp r' hr'
  · obtain ⟨rs, -, o, -, rfl⟩ := h
    exact hlist _
  · obtain ⟨rs, -, o, -, rfl⟩ := h
    exact hlist _
  · obtain ⟨ra, -, rb, -, rfl⟩ := h
    exact hlist _

theorem at?_eq_some :
    s.at? l = some r ↔ s.lists[l]? = some r ∧ r.frees = 0 ∧ s.faulted = false := by
  rw [at?, Option.filter_eq_some_iff, Bool.and_eq_true, decide_eq_true_iff, Bool.not_eq_true']

theorem step_of_not_faulted (h : s.faulted = false) (a : PlistAct) :
    s.step size a = s.call size a := by
  rw [step, if_neg (by simp [h])]

/-- No lists of the library are asked for. -/
theorem Initial.empty : Initial ⟨[], []⟩ :=
  ⟨rfl, List.forall_mem_nil _, List.forall_mem_nil _, List.forall_mem_nil _⟩

theorem mem_of_at? (h : s.at? l = some r) : r ∈ s.lists :=
  List.mem_of_getElem? (at?_eq_some.mp h).1

/-- The lists a call is given are there. -/
theorem mem_of_mapM_at? {ls : List ℕ} {rs : List PlistCell} (h : ls.mapM s.at? = some rs) :
    ∀ r ∈ rs, r ∈ s.lists := by
  induction ls generalizing rs with
  | nil =>
    obtain rfl : [] = rs := Option.some.inj h
    simp
  | cons l ls ih =>
    simp only [List.mapM_cons, Option.bind_eq_bind, Option.bind_eq_some_iff, Option.pure_def,
      Option.some.injEq] at h
    obtain ⟨r, hr, rs, hrs, rfl⟩ := h
    exact List.forall_mem_cons.mpr ⟨mem_of_at? hr, ih hrs⟩

/-- **What a call can do to the lists that are there**: to make some behind them, or to change one,
by a store, a reference or the end of one; the release of a record leaves them as they are. -/
theorem step_cases {a : PlistAct} (h : s.step size a = some t) :
    (∃ m rs, a = .make m ∧ s.made size m = some rs ∧ t = { s with lists := s.lists ++ rs }) ∨
    (∃ l loc value r code r', a = .set l loc value ∧ s.at? l = some r ∧
      r.set loc value = some (code, r') ∧ t = { s with lists := s.lists.set l r' }) ∨
    (∃ l consumer r, a = .chanCreate l consumer ∧ s.at? l = some r ∧
      t = ⟨s.lists.set l r.ref, s.chans ++ [⟨l, consumer, true, false⟩]⟩) ∨
    (∃ c bc r, a = .chanDestroy c ∧ s.chans[c]? = some bc ∧ bc.live = true ∧
      s.lists[bc.plist]? = some r ∧
      t = ⟨s.lists.set bc.plist (r.chanDestroy bc), s.chans.set c { bc with live := false }⟩) ∨
    (∃ c bc, a = .release c ∧ s.chans[c]? = some bc ∧
      t = { s with chans := s.chans.set c { bc with released := true } }) ∨
    ∃ l r, a = .plistDestroy l ∧ s.lists[l]? = some r ∧
      t = { s with lists := s.lists.set l { r.destroy with handle := false } } := by
  replace h := (Option.ite_none_left_eq_some.mp h).2
  rcases a with m | ⟨l, loc, value⟩ | ⟨l, consumer⟩ | c | c | l <;>
    simp only [call, Option.bind_eq_bind, Option.bind_eq_some_iff, Option.some.injEq,
      Option.guard_eq_some', Prod.exists] at h
  · obtain ⟨rs, hrs, rfl⟩ := h
    exact .inl ⟨m, rs, rfl, hrs, rfl⟩
  · obtain ⟨r, hr, code, r', hset, rfl⟩ := h
    exact .inr (.inl ⟨l, loc, value, r, code, r', rfl, hr, hset, rfl⟩)
  · obtain ⟨r, hr, rfl⟩ := h
    exact .inr (.inr (.inl ⟨l, consumer, r, rfl, hr, rfl⟩))
  · obtain ⟨bc, hbc, -, hlive, r, hr, -, -, rfl⟩ := h
    exact .inr (.inr (.inr (.inl ⟨c, bc, r, rfl, hbc, hlive, hr, rfl⟩)))
  · obtain ⟨bc, hbc, -, -, rfl⟩ := h
    exact .inr (.inr (.inr (.inr (.inl ⟨c, bc, rfl, hbc, rfl⟩))))
  · obtain ⟨r, hr, rfl⟩ := h
    exact .inr (.inr (.inr (.inr (.inr ⟨l, r, rfl, hr, rfl⟩))))

end PlistHeap

end Libdsys
