import Libdsys.Branch.PlistHeap

/-!
# Branch/PlistCounts — a process list under its channels

The user and the channels over a list share it, and the last of them frees it.  `bc_plist_set` does
not change a list that somebody else uses — unless an entry holds no rank.

* `PlistHeap.Shared` — a list counts its users, and is freed when it has none.
* `plist_lifetime` — so it is in every run that creates channels over lists that are filled in and
  destroys none whose record is freed, and no list changes under a channel.
* `source_destroyed` — a source frees its record first.
* `count_wraps` — the count is an `int`.
-/

open Machinery

namespace Libdsys

open PlistCell

namespace PlistHeap

/-- Who uses a list: the channels over it, and the user. -/
def users (s : PlistHeap) (l : ℕ) (r : PlistCell) : ℕ := s.live l + r.handle.toNat

/-- **What a caller keeps to** with lists of its own: it has a handle on the list it sets or
destroys, a location is in range, and a channel is created over a list that is filled in. -/
def obliged (s : PlistHeap) : PlistAct → Bool
  | .set l loc _ =>
    s.lists[l]?.all fun r => r.custom → r.handle ∧ 0 ≤ loc ∧ loc < r.pl.plist.length
  | .chanCreate l _ => s.lists[l]?.all fun r => r.custom → -1 ∉ r.pl.plist
  | .plistDestroy l => s.lists[l]?.all fun r => r.custom → r.handle
  | _ => true

/-- **There is room in `rc`** for one more channel. -/
def room (s : PlistHeap) : PlistAct → Bool
  | .chanCreate l _ => s.lists[l]?.all fun r => s.users l r < 2 ^ 31 - 1
  | _ => true

/-- **No channel is destroyed whose record is freed by then**: no source, and no sink that was
released. -/
def recordKept (s : PlistHeap) : PlistAct → Bool
  | .chanDestroy c => s.chans[c]?.all fun bc => !bc.dangling
  | _ => true

/-- The calls of such a caller, as long as they come out right. -/
def careful (size : ℕ) : PlistHeap → PlistAct → Option PlistHeap :=
  restrict (fun s a => s.obliged a = true ∧ s.room a = true ∧ s.recordKept a = true) (step size)

/-! ## The invariant -/

/-- **A list counts its users**, and is freed when it has none. -/
structure Shared (s : PlistHeap) (l : ℕ) (r : PlistCell) : Prop where
  rc : r.rc = s.users l r
  frees : r.frees = if s.users l r = 0 then 1 else 0
  small : s.users l r < 2 ^ 31
  filled : 0 < s.live l → -1 ∉ r.pl.plist

theorem Shared.frees_eq {s : PlistHeap} {l : ℕ} {r : PlistCell} (h : s.Shared l r) :
    r.frees = if r.rc = 0 then 1 else 0 := by
  rw [h.frees, h.rc]
  exact if_congr Int.natCast_eq_zero.symm rfl rfl

structure Inv (s : PlistHeap) : Prop where
  shared : ∀ l r, s.lists[l]? = some r → r.custom = true → s.Shared l r
  chans : ∀ bc ∈ s.chans, bc.plist < s.lists.length

variable {size : ℕ} {s t : PlistHeap} {l c : ℕ} {r r' : PlistCell} {bc : PlistUser}

theorem Initial.inv (h : s.Initial) : s.Inv := by
  refine ⟨fun l r hr hcustom => ?_, ?_⟩
  · rw [h.internal r (List.mem_of_getElem? hr)] at hcustom
    cases hcustom
  · rw [h.noChans]
    exact List.forall_mem_nil _

/-- Another channel over a list. -/
theorem live_append (s : PlistHeap) (ls : List PlistCell) (l l' : ℕ) (consumer : Bool) :
    live ⟨ls, s.chans ++ [⟨l', consumer, true, false⟩]⟩ l = s.live l + if l' = l then 1 else 0 := by
  rw [live, live, List.countP_append, List.countP_singleton]
  simp

/-- One that goes. -/
theorem live_set (s : PlistHeap) (ls : List PlistCell) (l : ℕ) (hbc : s.chans[c]? = some bc)
    (hlive : bc.live = true) :
    live ⟨ls, s.chans.set c { bc with live := false }⟩ l + (if bc.plist = l then 1 else 0) =
      s.live l := by
  obtain ⟨hc, hbc⟩ := List.getElem?_eq_some_iff.mp hbc
  have hpos : bc.plist = l → 0 < s.live l := by
    intro hl
    refine List.countP_pos_iff.mpr ⟨bc, hbc ▸ List.getElem_mem hc, ?_⟩
    simp [hlive, hl]
  rw [live, List.countP_set hc, hbc]
  simp only [hlive, Bool.true_and, beq_iff_eq, Bool.false_and, Bool.false_eq_true, if_false,
    Nat.add_zero]
  rw [live] at hpos ⊢
  split
  · next hl =>
    have := hpos hl
    omega
  · omega

/-- Over a list that is made there is no channel yet. -/
theorem Inv.live_eq_zero (hs : s.Inv) (hl : s.lists.length ≤ l) : s.live l = 0 := by
  refine List.countP_eq_zero.mpr fun bc hbc => ?_
  have := hs.chans bc hbc
  simp only [Bool.and_eq_true, beq_iff_eq, not_and]
  omega

/-- A list is shared as before if its users are. -/
theorem Shared.congr (h : s.Shared l r) (hlive : t.live l = s.live l) : t.Shared l r := by
  have husers : t.users l r = s.users l r := by rw [users, users, hlive]
  exact ⟨husers ▸ h.rc, husers ▸ h.frees, husers ▸ h.small, hlive ▸ h.filled⟩

/-- **One list is changed**, and its users. -/
theorem Inv.set (hs : s.Inv) {chans : List PlistUser}
    (hchans : ∀ bc ∈ chans, bc.plist < s.lists.length)
    (hlive : ∀ l', l' ≠ l → live ⟨s.lists.set l r', chans⟩ l' = s.live l')
    (hr : r'.custom = true → Shared ⟨s.lists.set l r', chans⟩ l r') :
    Inv ⟨s.lists.set l r', chans⟩ := by
  refine ⟨fun l' r₁ hr₁ hcustom => ?_, by rwa [List.length_set]⟩
  rcases eq_or_ne l l' with rfl | hne
  · obtain ⟨hl, rfl⟩ : l < s.lists.length ∧ r' = r₁ := by
      simpa [List.getElem?_set] using hr₁
    exact hr hcustom
  · rw [List.getElem?_set_ne hne] at hr₁
    exact (hs.shared l' r₁ hr₁ hcustom).congr (hlive l' hne.symm)

/-- A user comes. -/
theorem Shared.ref (h : s.Shared l r) (hcustom : r.custom = true) (hfrees : r.frees = 0)
    (hroom : s.users l r < 2 ^ 31 - 1) (hfilled : -1 ∉ r.pl.plist)
    (hlive : t.live l = s.live l + 1) : t.Shared l r.ref := by
  have husers : t.users l { r with rc := intAdd r.rc 1 } = s.users l r + 1 := by
    rw [users, users, hlive, Nat.add_right_comm]
  have hrc : intAdd r.rc 1 = s.users l r + 1 := by
    rw [h.rc, intAdd_of_lt] <;> omega
  rw [PlistCell.ref, if_pos hcustom]
  refine ⟨?_, ?_, ?_, fun _ => hfilled⟩
  · rw [husers]
    exact hrc
  · rw [husers, if_neg (Nat.succ_ne_zero _)]
    exact hfrees
  · omega

/-- **A user goes**, and frees the list if it is the last. -/
theorem Shared.destroy (h : s.Shared l r) (hcustom : r.custom = true) {handle : Bool}
    (husers : t.live l + handle.toNat + 1 = s.users l r) (hlive : t.live l ≤ s.live l) :
    t.Shared l { r.destroy with handle } := by
  have hrc : intAdd r.rc (-1) = t.live l + handle.toNat := by
    rw [h.rc, intAdd_of_lt] <;> have := h.small <;> omega
  have hfrees : r.frees = 0 := by
    rw [h.frees, if_neg (by omega)]
  rw [destroy_of_custom hcustom]
  refine ⟨?_, ?_, ?_, fun hpos => h.filled (hpos.trans_le hlive)⟩
  · rw [hrc, users]
    push_cast
    rfl
  · have hzero : intAdd r.rc (-1) = 0 ↔ t.live l + handle.toNat = 0 := by omega
    rw [hfrees]
    exact if_congr hzero rfl rfl
  · have hsmall := h.small
    change t.live l + handle.toNat < 2 ^ 31
    omega

/-- Lists that are made. -/
theorem Inv.append (hs : s.Inv) {rs : List PlistCell} (hrs : ∀ r ∈ rs, ∃ pl, r = fresh pl) :
    Inv { s with lists := s.lists ++ rs } := by
  refine ⟨fun l r hr _ => ?_, fun bc hbc => ?_⟩
  · rcases lt_or_ge l s.lists.length with hl | hl
    · rw [List.getElem?_append_left hl] at hr
      exact (hs.shared l r hr ‹_›).congr rfl
    · rw [List.getElem?_append_right hl] at hr
      obtain ⟨pl, rfl⟩ := hrs r (List.mem_of_getElem? hr)
      have hlive : live { s with lists := s.lists ++ rs } l = 0 := hs.live_eq_zero hl
      have husers : users { s with lists := s.lists ++ rs } l (fresh pl) = 1 := by
        rw [users, hlive]
        rfl
      exact ⟨by rw [husers]; rfl, by rw [husers]; rfl, by rw [husers]; decide,
        fun hpos => absurd hlive hpos.ne'⟩
  · rw [List.length_append]
    exact (hs.chans bc hbc).trans_le (Nat.le_add_right _ _)

/-- A record that is released is none of a list's users. -/
theorem live_release (hbc : s.chans[c]? = some bc) (l : ℕ) :
    live { s with chans := s.chans.set c { bc with released := true } } l = s.live l := by
  obtain ⟨hc, hbc⟩ := List.getElem?_eq_some_iff.mp hbc
  have hpos : bc.live = true ∧ bc.plist = l → 0 < s.live l := by
    rintro ⟨hlive, rfl⟩
    exact List.countP_pos_iff.mpr ⟨bc, hbc ▸ List.getElem_mem hc, by simp [hlive]⟩
  rw [live, List.countP_set hc, hbc]
  simp only [Bool.and_eq_true, beq_iff_eq]
  rw [live] at hpos ⊢
  split
  · next h => exact Nat.sub_add_cancel (hpos h)
  · rfl

theorem Inv.released (hs : s.Inv) (hbc : s.chans[c]? = some bc) :
    Inv { s with chans := s.chans.set c { bc with released := true } } := by
  refine ⟨fun l r hr hcustom => (hs.shared l r hr hcustom).congr (live_release hbc l),
    fun bc' hbc' => ?_⟩
  rcases List.mem_or_eq_of_mem_set hbc' with hmem | rfl
  · exact hs.chans bc' hmem
  · exact hs.chans bc (List.mem_of_getElem? hbc)

/-- **A list under a channel is not set.** -/
theorem Shared.set (h : s.Shared l r) (hhandle : r.handle = true) {loc value code : ℤ}
    (hset : r.set loc value = some (code, r')) (hlive : 0 < s.live l) : r' = r := by
  rcases PlistCell.set_cases hset with ⟨rfl, -⟩ | ⟨i, hi, -, hstore, -⟩
  · rfl
  · have hrc := h.rc
    rw [users, hhandle, Bool.toNat_true] at hrc
    rcases hstore with hempty | hfree
    · exact absurd (hempty ▸ List.getElem_mem hi) (h.filled hlive)
    · omega

/-- **What a call of a careful caller keeps.** -/
theorem Inv.step (hs : s.Inv) {a : PlistAct} (h : careful size s a = some t) : t.Inv := by
  obtain ⟨⟨hobliged, hroom, hkept⟩, h⟩ := restrict_eq_some.mp h
  rcases step_cases h with ⟨m, rs, rfl, hrs, rfl⟩ |
    ⟨l, loc, value, r, code, r', rfl, hr, hset, rfl⟩ |
    ⟨l, consumer, r, rfl, hr, rfl⟩ | ⟨c, bc, r, rfl, hbc, hlive, hr, rfl⟩ | ⟨c, bc, rfl, hbc, rfl⟩ |
    ⟨l, r, rfl, hr, rfl⟩
  · exact hs.append (made_fresh hrs)
  · have hr := (at?_eq_some.mp hr).1
    simp only [obliged, hr, Option.all_some, decide_eq_true_iff] at hobliged
    obtain ⟨pl, rfl⟩ := PlistCell.set_frame hset
    refine hs.set hs.chans (fun _ _ => rfl) fun hcustom => ?_
    have hshared := hs.shared l r hr hcustom
    refine ⟨hshared.rc, hshared.frees, hshared.small, fun hlive => ?_⟩
    rw [hshared.set (hobliged hcustom).1 hset hlive]
    exact hshared.filled hlive
  · obtain ⟨hr, hfrees, -⟩ := at?_eq_some.mp hr
    have hl := (List.getElem?_eq_some_iff.mp hr).1
    simp only [obliged, room, hr, Option.all_some, decide_eq_true_iff] at hobliged hroom
    refine hs.set ?_ (fun l' hne => ?_) fun hcustom => ?_
    · exact List.forall_mem_append.mpr ⟨hs.chans, List.forall_mem_singleton.mpr hl⟩
    · rw [live_append, if_neg hne.symm, Nat.add_zero]
    · rw [custom_ref] at hcustom
      exact (hs.shared l r hr hcustom).ref hcustom hfrees hroom (hobliged hcustom)
        (by rw [live_append, if_pos rfl])
  · have hdestroy : r.chanDestroy bc = r.destroy := by
      refine if_neg ?_
      simpa only [recordKept, hbc, Option.all_some, Bool.not_eq_true', Bool.not_eq_true] using hkept
    rw [hdestroy]
    refine hs.set (fun bc' hbc' => ?_) (fun l' hne => ?_) fun hcustom => ?_
    · rcases List.mem_or_eq_of_mem_set hbc' with hmem | rfl
      · exact hs.chans bc' hmem
      · exact hs.chans bc (List.mem_of_getElem? hbc)
    · have hcount := live_set s (s.lists.set bc.plist r.destroy) l' hbc hlive
      rwa [if_neg hne.symm, Nat.add_zero] at hcount
    · rw [custom_destroy] at hcustom
      have hcount := live_set s (s.lists.set bc.plist r.destroy) bc.plist hbc hlive
      rw [if_pos rfl] at hcount
      have hshared := hs.shared bc.plist r hr hcustom
      have hself : { r.destroy with handle := r.handle } = r.destroy := by
        rw [destroy_of_custom hcustom]
      have hgone := @Shared.destroy _ _ _ _ hshared hcustom r.handle
        (by rw [users, ← hcount]; omega) (Nat.le.intro hcount)
      rwa [hself] at hgone
  · exact hs.released hbc
  · simp only [obliged, hr, Option.all_some, decide_eq_true_iff] at hobliged
    refine hs.set hs.chans (fun _ _ => rfl) fun hcustom => ?_
    have hcustom : r.custom = true := by simpa using hcustom
    refine (hs.shared l r hr hcustom).destroy hcustom ?_ (le_refl _)
    rw [users, hobliged hcustom]
    rfl

/-- `r'` is what `r` can become in a call: the same kind of list, freed if it was, and with the same
entries if there are channels over it. -/
structure Becomes (s : PlistHeap) (l : ℕ) (r r' : PlistCell) : Prop where
  custom : r'.custom = r.custom
  frees : r.frees ≤ r'.frees
  pl : 0 < s.live l → r'.pl = r.pl

theorem Becomes.refl (s : PlistHeap) (l : ℕ) (r : PlistCell) : s.Becomes l r r :=
  ⟨rfl, le_refl _, fun _ => rfl⟩

/-- Where one list is changed, the others stay. -/
theorem becomes_set {l' : ℕ} {r₀ r₁ : PlistCell} (hr : s.lists[l]? = some r)
    (hr₀ : s.lists[l']? = some r₀) (h : s.Becomes l' r₀ r₁) :
    ∃ r', (s.lists.set l' r₁)[l]? = some r' ∧ s.Becomes l r r' := by
  rcases eq_or_ne l' l with rfl | hne
  · obtain rfl : r₀ = r := Option.some.inj (hr₀.symm.trans hr)
    exact ⟨r₁, by rw [List.getElem?_set_self (List.getElem?_eq_some_iff.mp hr).1], h⟩
  · exact ⟨r, by rw [List.getElem?_set_ne hne, hr], .refl s l r⟩

/-- **What becomes of a list** in a call of a careful caller. -/
theorem Inv.becomes (hs : s.Inv) {a : PlistAct} (h : careful size s a = some t)
    (hr : s.lists[l]? = some r) (hcustom : r.custom = true) :
    ∃ r', t.lists[l]? = some r' ∧ s.Becomes l r r' := by
  obtain ⟨⟨hobliged, -⟩, h⟩ := restrict_eq_some.mp h
  rcases step_cases h with ⟨m, rs, rfl, hrs, rfl⟩ |
    ⟨l', loc, value, r₀, code, r₁, rfl, hr₀, hset, rfl⟩ | ⟨l', consumer, r₀, rfl, hr₀, rfl⟩ |
    ⟨c, bc, r₀, rfl, hbc, hlive, hr₀, rfl⟩ | ⟨c, bc, rfl, hbc, rfl⟩ | ⟨l', r₀, rfl, hr₀, rfl⟩
  · exact ⟨r, by rw [List.getElem?_append_left (List.getElem?_eq_some_iff.mp hr).1, hr],
      .refl s l r⟩
  · have hr₀ := (at?_eq_some.mp hr₀).1
    rcases eq_or_ne l' l with rfl | hne
    · obtain rfl : r₀ = r := Option.some.inj (hr₀.symm.trans hr)
      simp only [obliged, hr₀, Option.all_some, decide_eq_true_iff] at hobliged
      obtain ⟨pl, hpl⟩ := PlistCell.set_frame hset
      refine becomes_set hr hr₀ ⟨by rw [hpl], by rw [hpl], fun hlive => ?_⟩
      rw [(hs.shared l' r₀ hr hcustom).set (hobliged hcustom).1 hset hlive]
    · exact ⟨r, by rw [List.getElem?_set_ne hne, hr], .refl s l r⟩
  · refine becomes_set hr (at?_eq_some.mp hr₀).1 ⟨custom_ref r₀, ?_, fun _ => pl_ref r₀⟩
    exact (frees_ref r₀).ge
  · exact becomes_set hr hr₀ ⟨custom_chanDestroy r₀ _, frees_le_chanDestroy r₀ _,
      fun _ => pl_chanDestroy r₀ _⟩
  · exact ⟨r, hr, .refl s l r⟩
  · exact becomes_set hr hr₀ ⟨custom_destroy r₀, frees_le_destroy r₀, fun _ => pl_destroy r₀⟩

/-- **A process list under its channels**, for a careful caller: `rc` is the number of its users,
the list is freed when that comes to 0 and at no other time, and no call changes it as long as
there is a channel over it. -/
theorem plist_lifetime (hinit : s.Initial) (hreach : Reaches (careful size) s t)
    (hr : t.lists[l]? = some r) (hcustom : r.custom = true) :
    r.rc = t.live l + r.handle.toNat ∧ r.frees = (if r.rc = 0 then 1 else 0) ∧
    ∀ a u, careful size t a = some u → ∃ r', u.lists[l]? = some r' ∧
      r'.frees = r.frees + (if r.rc ≠ 0 ∧ r'.rc = 0 then 1 else 0) ∧
      (0 < t.live l → r'.pl = r.pl) := by
  have ht : t.Inv := hreach.invariant (fun s a t hs h => Inv.step hs h) hinit.inv
  have hshared := ht.shared l r hr hcustom
  refine ⟨by rw [hshared.rc, users, Int.natCast_add], hshared.frees_eq, fun a u hu => ?_⟩
  obtain ⟨r', hr', hbecomes⟩ := ht.becomes hu hr hcustom
  have hshared' := (Inv.step ht hu).shared l r' hr' (hbecomes.custom.trans hcustom)
  refine ⟨r', hr', ?_, hbecomes.pl⟩
  have hle := hbecomes.frees
  rw [hshared.frees_eq, hshared'.frees_eq] at hle ⊢
  -- a list that was freed has no users any more
  by_cases hzero : r.rc = 0
  · have hzero' : r'.rc = 0 := by
      by_contra hne
      rw [if_pos hzero, if_neg hne] at hle
      omega
    rw [if_pos hzero, if_pos hzero', if_neg (by omega)]
  · rw [if_neg hzero, Nat.zero_add]
    exact if_congr (by omega) rfl rfl

/-- A list under one channel, after a store that is refused. -/
theorem plist_lifetime_one :
    (2 : ℤ) = live ⟨[⟨⟨[1], 0⟩, true, 2, 0, true⟩], [⟨0, false, true, false⟩]⟩ 0 + true.toNat ∧
    0 = (if (2 : ℤ) = 0 then 1 else 0) ∧
    ∀ a u, careful 4 ⟨[⟨⟨[1], 0⟩, true, 2, 0, true⟩], [⟨0, false, true, false⟩]⟩ a = some u →
      ∃ r', u.lists[0]? = some r' ∧ r'.frees = 0 + (if (2 : ℤ) ≠ 0 ∧ r'.rc = 0 then 1 else 0) ∧
        (0 < live ⟨[⟨⟨[1], 0⟩, true, 2, 0, true⟩], [⟨0, false, true, false⟩]⟩ 0 → r'.pl = ⟨[1], 0⟩) :=
  @plist_lifetime 4 ⟨[], []⟩ _ 0 ⟨⟨[1], 0⟩, true, 2, 0, true⟩ .empty
    ⟨[.make (.create 0 [1]), .chanCreate 0 false, .set 0 0 3], rfl⟩ rfl rfl

/-- **A source that is destroyed**: its record is freed, and then read; the list is not counted
down, and the process gets no further. -/
theorem source_destroyed : ∃ t r,
    Reaches (restrict (fun s a => s.obliged a = true) (step 4)) ⟨[], []⟩ t ∧
    t.lists[0]? = some r ∧ r.custom = true ∧ r.handle = true ∧ t.live 0 = 0 ∧ r.rc = 2 ∧
    ∀ a, t.step 4 a = none :=
  ⟨_, ⟨⟨[1], 0⟩, true, 2, 0, true⟩,
    ⟨[.make (.create 0 [1]), .chanCreate 0 true, .chanDestroy 0], rfl⟩, rfl, rfl, rfl, rfl, rfl,
    fun _ => if_pos rfl⟩

/-- A list and `n` channels over it. -/
def shared (n : ℕ) : PlistHeap :=
  ⟨[⟨⟨[1], 0⟩, true, asInt (n + 1), 0, true⟩], List.replicate n ⟨0, false, true, false⟩⟩

theorem faulted_shared (n : ℕ) : (shared n).faulted = false :=
  List.any_eq_false.mpr fun bc hbc => by simp [List.eq_of_mem_replicate hbc]

theorem reaches_shared (n : ℕ) :
    Reaches (restrict (fun s a => s.obliged a = true) (step 4)) ⟨[], []⟩ (shared n) := by
  induction n with
  | zero =>
    refine .single (a := .make (.create 0 [1])) ?_
    rw [shared, asInt_one]
    rfl
  | succ n ih =>
    refine ih.tail (a := .chanCreate 0 false) (restrict_eq_some.mpr ⟨rfl, ?_⟩)
    have hrc : intAdd (asInt (n + 1)) 1 = asInt (n + 1 + 1) := intAdd_asInt (n + 1) 1
    have href : (⟨⟨[1], 0⟩, true, asInt (n + 1), 0, true⟩ : PlistCell).ref =
        ⟨⟨[1], 0⟩, true, asInt (n + 1 + 1), 0, true⟩ := by
      rw [PlistCell.ref, if_pos rfl, hrc]
    have hat : (shared n).at? 0 = some ⟨⟨[1], 0⟩, true, asInt (n + 1), 0, true⟩ :=
      at?_eq_some.mpr ⟨rfl, rfl, faulted_shared n⟩
    rw [step_of_not_faulted (faulted_shared n), call, hat, Option.bind_eq_bind, Option.bind_some,
      href, shared, shared, List.replicate_succ']
    rfl

theorem live_shared (n : ℕ) : (shared n).live 0 = n := by
  rw [live, shared, List.countP_replicate]
  exact if_pos rfl

/-- **The count wraps around** when there are 2³¹ users. -/
theorem count_wraps : ∃ t r,
    Reaches (restrict (fun s a => s.obliged a = true) (step 4)) ⟨[], []⟩ t ∧
    t.lists[0]? = some r ∧ r.custom = true ∧ r.handle = true ∧ t.live 0 = 2 ^ 31 - 1 ∧
    r.rc = -2 ^ 31 := by
  refine ⟨shared (2 ^ 31 - 1), _, reaches_shared _, rfl, rfl, rfl, live_shared _, ?_⟩
  unfold asInt
  decide

end PlistHeap

end Libdsys
