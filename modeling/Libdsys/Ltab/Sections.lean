import Libdsys.Ltab.Locks
import Libdsys.Ltab.LinkSearch

/-!
# Ltab/Sections — the sections of a hook's lock as single steps

A section of the link table's functions is alone with the root of the list while it holds the lock.
So what a call does one operation at a time, it also does a section at a time: a section counts
where it takes the lock, the one of an insertion where it links.

* `search_in_sections`, `destroy_in_sections` — a call beside insertions, in both ways.
* `asleep_without_link`, `destroyed_without_loss` — what is known of the sections, of the
  operations.
-/

open Machinery

namespace Libdsys

/-- No call is made. -/
def LockedAct.within : LockedAct → Bool
  | .search _ | .destroy _ => false
  | .malloc _ _ | .insert | .go | .spurious => true

/-- Where a search is, a section at a time. -/
def SearchAt.inSections (root : Option ℕ) : SearchAt → LinkSearch
  | .enter => .start
  | .top => .walking root root
  | .read dummy => .walking dummy dummy
  | .walking dummy temp => .walking dummy temp
  | .check dummy => .walking dummy none
  | .asleep => .asleep
  | .woken => .woken

/-- An insertion that has linked is to signal. -/
def InsertAt.signals : InsertAt → LinkSearch → LinkSearch
  | .linked, st => st.signal
  | .outside, st | .locked, st | .signalled, st => st

/-- Where a destruction is, a section at a time. -/
def DestroyAt.inSections (root : Option ℕ) : DestroyAt → Destroy
  | .enter => .start
  | .again => .looked root
  | .read rtemp | .looked rtemp => .looked rtemp
  | .freed rtemp temp | .relocked rtemp temp => .freed rtemp temp
  | .scanning rtemp temp dummy => .scanning rtemp temp dummy
  | .walking rtemp temp => .walking rtemp temp
  | .missed rtemp | .check rtemp => .missed rtemp
  | .asleep | .woken => .asleep
  | .leaving | .unlinked => .done

namespace Locked

/-- The steps of calls that are under way. -/
def within : Locked → LockedAct → Option Locked := restrict (fun _ a => a.within = true) step

/-- The state of a search, a section at a time. -/
def sought (s : Locked) (pc : SearchAt) : Sought :=
  ⟨s.hook.goto .start, s.insertAt.signals (pc.inSections s.hook.root)⟩

/-- **A search in both ways**, under way and returned. -/
inductive Seeks (t : ℕ) (s : Locked) : Sought → Prop
  | search {pc} (hcall : s.call = .search t pc) : Seeks t s (s.sought pc)
  | found (temp) (hcall : s.call = .idle) : Seeks t s ⟨s.hook.goto .start, .found temp⟩

variable {s s' : Locked} {t : ℕ}

/-- No insertion is in its section beside the service thread's. -/
theorem Inv.alone (h : s.Inv) (hinside : s.call.inside = true) : s.insertAt = .outside := by
  by_contra hat
  exact Bool.false_ne_true ((h.disciplined.exclusive hat).symm.trans hinside)

theorem sought_of_outside (hout : s.insertAt = .outside) (pc : SearchAt) :
    s.sought pc = ⟨s.hook.goto .start, pc.inSections s.hook.root⟩ := by
  rw [sought, hout]
  rfl

theorem sought_walking (s : Locked) (dummy temp : Option ℕ) :
    s.sought (.walking dummy temp) = ⟨s.hook.goto .start, .walking dummy temp⟩ := by
  rw [sought]
  cases s.insertAt <;> rfl

/-- A section that is under way shows nothing more. -/
theorem Seeks.of_eq {pc : SearchAt} {x : Sought} (hcall : s.call = .search t pc)
    (heq : s.sought pc = x) : Seeks t s x := heq ▸ .search hcall

/-- **An operation of a search** is a step of its sections, or shows nothing. -/
theorem Seeks.go {pc : SearchAt} (h : s.Inv) (hcall : s.call = .search t pc)
    (hs : s.searchStep t pc = some s') :
    ∃ x, Reaches (Sought.step t) (s.sought pc) x ∧ Seeks t s' x := by
  have hinside : s.call.inside = pc.inside := congrArg LinkCall.inside hcall
  cases pc with
  | enter | woken =>
    obtain ⟨hfree, hs⟩ := Option.ite_none_right_eq_some.mp hs
    obtain rfl := Option.some.inj hs
    have hout := (h.outside hfree).2
    refine ⟨_, .single (a := .look) ?_, .of_eq rfl (sought_of_outside hout .top)⟩
    rw [sought_of_outside hout]
    rfl
  | top | read dummy =>
    obtain rfl := Option.some.inj hs
    exact ⟨_, .refl _, .of_eq rfl rfl⟩
  | walking dummy temp =>
    rw [sought_walking]
    rcases temp with _ | temp
    · obtain ⟨hfree, hs⟩ := Option.ite_none_right_eq_some.mp hs
      obtain rfl := Option.some.inj hs
      exact ⟨_, .refl _, .of_eq rfl (sought_walking s dummy none)⟩
    · rw [searchStep] at hs
      split at hs
      · next htag =>
        obtain rfl := Option.some.inj hs
        exact ⟨_, .single (a := .compare) (if_pos htag), .found temp rfl⟩
      · next htag =>
        obtain rfl := Option.some.inj hs
        exact ⟨_, .single (a := .compare) (if_neg htag), .of_eq rfl (sought_walking s dummy _)⟩
  | check dummy =>
    have hout := h.alone hinside
    rw [sought_of_outside hout]
    rw [searchStep] at hs
    split at hs
    · next hroot =>
      obtain rfl := Option.some.inj hs
      exact ⟨_, .single (a := .recheck) (if_pos hroot), .of_eq rfl (sought_of_outside hout .top)⟩
    · next hroot =>
      obtain rfl := Option.some.inj hs
      exact ⟨_, .single (a := .recheck) (if_neg hroot), .of_eq rfl (sought_of_outside hout .asleep)⟩
  | asleep => cases hs

/-- An allocation is none of the destruction's business. -/
theorem malloc_goto {hook hook' : Hooked} {b : ℕ} {next : Option ℕ} (t : ℕ) (d : Destroy)
    (hs : hook.step 0 (.malloc b next) = some hook') :
    (hook.goto d).step t (.malloc b next) = some (hook'.goto d) ∧ hook'.root = hook.root := by
  cases Hooked.stepIs hs with
  | malloc hinsert htodo hlive =>
    simp [Hooked.step, Hooked.goto, Hooked.allocated, hinsert, htodo, hlive]

/-- A link is inserted unless the destruction goes through the list with the lock. -/
theorem link_goto {hook : Hooked} {b : ℕ} (t : ℕ) {d : Destroy}
    (hd : ∀ r temp c, d ≠ .scanning r temp c) (hinsert : hook.insert = some b) :
    (hook.goto d).step t .link = some ((hook.linked b).goto d) := by
  cases d <;> simp [Hooked.step, Hooked.goto, Hooked.linked, Hooked.setNext, hinsert] at hd ⊢

/-- The root matters only inside of a section. -/
theorem inSections_of_not_inside {pc : SearchAt} (hinside : pc.inside = false)
    (r r' : Option ℕ) : pc.inSections r = pc.inSections r' := by
  cases pc with
  | top => cases hinside
  | enter | read _ | walking _ _ | check _ | asleep | woken => rfl

/-- A signal does the same in both ways. -/
theorem signal_search (t : ℕ) (pc : SearchAt) (root : Option ℕ) : ∃ pc',
    (LinkCall.search t pc).signal = .search t pc' ∧
      (pc.inSections root).signal = pc'.inSections root := by
  cases pc with
  | asleep => exact ⟨.woken, rfl, rfl⟩
  | enter | top | read _ | walking _ _ | check _ | woken => exact ⟨_, rfl, rfl⟩

/-- **An operation of an insertion** beside a search. -/
theorem Seeks.insert {x : Sought} (h : s.Inv) (hx : Seeks t s x) (hs : Inserts s s') :
    ∃ y, Reaches (Sought.step t) x y ∧ Seeks t s' y := by
  cases hs with
  | lock hat _ =>
    cases hx with
    | search hcall => exact ⟨_, .refl _, .of_eq hcall (sought_of_outside hat _).symm⟩
    | found _ hcall => exact ⟨_, .refl _, .found _ hcall⟩
  | @link b hat hinsert =>
    have hlink := link_goto t (d := .start) (by simp) hinsert
    cases hx with
    | @search pc hcall =>
      have hinside : pc.inside = false := by
        have hexclusive := h.disciplined.exclusive (by simp [hat])
        rwa [hcall] at hexclusive
      refine ⟨_, .single (a := .link) ?_, .search hcall⟩
      rw [sought, sought, hat, Sought.step, hlink,
        inSections_of_not_inside hinside (s.hook.linked b).root s.hook.root]
      rfl
    | found temp hcall =>
      refine ⟨_, .single (a := .link) ?_, .found temp hcall⟩
      rw [Sought.step, hlink]
      rfl
  | signal hat =>
    cases hx with
    | @search pc hcall =>
      obtain ⟨pc', hsignal, hpc⟩ := signal_search t pc s.hook.root
      rw [← hcall] at hsignal
      refine ⟨_, .refl _, .of_eq hsignal ?_⟩
      rw [sought, sought, hat, ← hpc]
      rfl
    | found _ hcall => exact ⟨_, .refl _, .found _ (by rw [hcall]; rfl)⟩
  | unlock hat =>
    cases hx with
    | search hcall =>
      refine ⟨_, .refl _, .of_eq hcall ?_⟩
      rw [sought, sought, hat]
      rfl
    | found _ hcall => exact ⟨_, .refl _, .found _ hcall⟩

/-- **A step beside a search.** -/
theorem Seeks.step {a : LockedAct} {x : Sought} (h : s.Inv) (hx : Seeks t s x)
    (hs : s.within a = some s') : ∃ y, Reaches (Sought.step t) x y ∧ Seeks t s' y := by
  obtain ⟨hwithin, hs⟩ := restrict_eq_some.mp hs
  cases a with
  | malloc b next =>
    obtain ⟨hout, hs⟩ := Option.ite_none_right_eq_some.mp hs
    obtain ⟨hook, hhook, rfl⟩ := Option.map_eq_some_iff.mp hs
    obtain ⟨hmalloc, hroot⟩ := malloc_goto t .start hhook
    cases hx with
    | @search pc hcall =>
      refine ⟨_, .single (a := .malloc b next) ?_, .search hcall⟩
      rw [sought, sought, hroot, Sought.step, hmalloc]
      rfl
    | found temp hcall =>
      refine ⟨_, .single (a := .malloc b next) ?_, .found temp hcall⟩
      rw [Sought.step, hmalloc]
      rfl
  | insert => exact hx.insert h (inserts hs)
  | go =>
    cases hx with
    | search hcall =>
      rw [Locked.step, hcall] at hs
      exact Seeks.go h hcall hs
    | found _ hcall =>
      rw [Locked.step, hcall] at hs
      cases hs
  | spurious =>
    cases hx with
    | @search pc hcall =>
      rw [Locked.step, hcall] at hs
      cases pc with
      | asleep =>
        obtain rfl := Option.some.inj hs
        by_cases hat : s.insertAt = .linked
        · refine ⟨_, .refl _, .of_eq rfl ?_⟩
          rw [sought, sought, goto, hat]
          rfl
        · refine ⟨_, .single (a := .spurious) ?_, .search rfl⟩
          rw [sought, sought, goto]
          cases hpc : s.insertAt with
          | linked => exact absurd hpc hat
          | outside | locked | signalled => rfl
      | enter | top | read _ | walking _ _ | check _ | woken => cases hs
    | found _ hcall =>
      rw [Locked.step, hcall] at hs
      cases hs
  | search u | destroy u => cases hwithin

/-- Within a search, the discipline is kept. -/
theorem Seeks.inv {a : LockedAct} {x : Sought} (h : s.Inv) (hx : Seeks t s x)
    (hs : s.within a = some s') : s'.Inv := by
  refine h.step ?_ (restrict_eq_some.mp hs).2
  cases hx with
  | search hcall =>
    unfold careful
    rw [hcall]
    cases a <;> rfl
  | found _ hcall =>
    unfold careful
    rw [hcall]
    cases a <;> rfl

/-! ## A destruction -/

/-- **A destruction in both ways**, under way and returned. -/
inductive Unlinks (t : ℕ) (s : Locked) : Hooked → Prop
  | destroy {pc} (hcall : s.call = .destroy t pc) :
    Unlinks t s (s.hook.goto (pc.inSections s.hook.root))
  | done (hcall : s.call = .idle) : Unlinks t s (s.hook.goto .done)

/-- **An insertion does not link the block of the freed root** before the root is unlinked. -/
def notReused (s : Locked) (a : LockedAct) : Bool :=
  match a, s.insertAt, s.call with
  | .insert, .locked, .destroy _ (.freed rtemp _) => s.hook.insert != some rtemp
  | _, _, _ => true

/-- Steps of sections, which leave the block alone if `ok`. -/
def Sections (t : ℕ) (ok : Bool) (x y : Hooked) : Prop :=
  Reaches (Hooked.step t) x y ∧ (ok = true → Reaches (Hooked.careful t) x y)

theorem Sections.refl (t : ℕ) (ok : Bool) (x : Hooked) : Sections t ok x x :=
  ⟨.refl x, fun _ => .refl x⟩

theorem Sections.single {ok : Bool} {x y : Hooked} {b : HookedAct} (hb : x.step t b = some y)
    (hok : ok = true → x.notReused b = true) : Sections t ok x y :=
  ⟨.single hb, fun h => .single (restrict_eq_some.mpr ⟨hok h, hb⟩)⟩

theorem Sections.trans {ok : Bool} {x y z : Hooked} (hxy : Sections t ok x y)
    (hyz : Sections t ok y z) : Sections t ok x z :=
  ⟨hxy.1.trans hyz.1, fun h => (hxy.2 h).trans (hyz.2 h)⟩

/-- Once round the loop through the internal links. -/
theorem walk_goto {hook : Hooked} {temp dummy : ℕ} (t rtemp : ℕ)
    (hnext : hook.next temp = some dummy) : (hook.goto (.walking rtemp temp)).step t .walk =
      if (hook.mem dummy).link.tag = t then
        some (((hook.setNext temp (hook.next dummy)).free dummy).goto .done)
      else if hook.next dummy = none then some (hook.goto (.missed rtemp))
      else some (hook.goto (.walking rtemp dummy)) := by
  have hnext' : (hook.goto (.walking rtemp temp)).next temp = some dummy := hnext
  rw [Hooked.step]
  simp only [Hooked.goto] at hnext' ⊢
  simp only [hnext']
  rfl

/-- The root has changed: the link before the freed one is looked for. -/
theorem unlink_goto {hook : Hooked} {rtemp dummy : ℕ} (t : ℕ) (temp : Option ℕ)
    (hne : ¬some rtemp = hook.root) (hroot : hook.root = some dummy) :
    (hook.goto (.freed rtemp temp)).step t .unlink =
      some (hook.goto (.scanning rtemp temp dummy)) := by
  rw [hroot] at hne
  simp [Hooked.step, Hooked.goto, hne, hroot]

/-- Once round the loop that looks for it. -/
theorem scan_goto {hook : Hooked} {rtemp dummy dummy' : ℕ} (t : ℕ) (temp : Option ℕ)
    (hne : ¬hook.next dummy = some rtemp) (hnext : hook.next dummy = some dummy') :
    (hook.goto (.scanning rtemp temp dummy)).step t .scan =
      some (hook.goto (.scanning rtemp temp dummy')) := by
  rw [hnext] at hne
  rw [Hooked.next] at hnext
  simp [Hooked.step, Hooked.goto, Hooked.next, hne, hnext]

/-- A section that is under way shows nothing more. -/
theorem Unlinks.of_eq {pc : DestroyAt} {x : Hooked} (hcall : s.call = .destroy t pc)
    (heq : s.hook.goto (pc.inSections s.hook.root) = x) : Unlinks t s x := heq ▸ .destroy hcall

/-- **An operation of a destruction** is a step of its sections, or shows nothing. -/
theorem Unlinks.go {pc : DestroyAt} {ok : Bool} (hcall : s.call = .destroy t pc)
    (hs : s.destroyStep t pc = some s') :
    ∃ y, Sections t ok (s.hook.goto (pc.inSections s.hook.root)) y ∧ Unlinks t s' y := by
  cases pc with
  | enter =>
    obtain ⟨-, hs⟩ := Option.ite_none_right_eq_some.mp hs
    obtain rfl := Option.some.inj hs
    exact ⟨_, .single (b := .look) rfl fun _ => rfl, .of_eq rfl rfl⟩
  | again | read rtemp =>
    obtain rfl := Option.some.inj hs
    exact ⟨_, .refl _ _ _, .of_eq rfl rfl⟩
  | looked rtemp =>
    rcases rtemp with _ | rtemp
    · cases hs
    · rw [destroyStep] at hs
      split at hs
      · next htag =>
        obtain rfl := Option.some.inj hs
        exact ⟨_, .single (b := .compare) (if_pos htag) fun _ => rfl, .of_eq rfl rfl⟩
      · next htag =>
        obtain rfl := Option.some.inj hs
        exact ⟨_, .single (b := .compare) (if_neg htag) fun _ => rfl, .of_eq rfl rfl⟩
  | freed rtemp temp | missed rtemp =>
    obtain ⟨-, hs⟩ := Option.ite_none_right_eq_some.mp hs
    obtain rfl := Option.some.inj hs
    exact ⟨_, .refl _ _ _, .of_eq rfl rfl⟩
  | relocked rtemp temp =>
    rw [destroyStep] at hs
    split at hs
    · next hroot =>
      obtain rfl := Option.some.inj hs
      exact ⟨_, .single (b := .unlink) (if_pos hroot) fun _ => rfl, .of_eq rfl rfl⟩
    · next hne =>
      obtain ⟨dummy, hroot, rfl⟩ := Option.map_eq_some_iff.mp hs
      exact ⟨_, .single (unlink_goto t temp hne hroot) fun _ => rfl, .of_eq rfl rfl⟩
  | scanning rtemp temp dummy =>
    rw [destroyStep] at hs
    split at hs
    · next hnext =>
      obtain rfl := Option.some.inj hs
      exact ⟨_, .single (b := .scan) (if_pos hnext) fun _ => rfl, .of_eq rfl rfl⟩
    · next hne =>
      obtain ⟨dummy', hnext, rfl⟩ := Option.map_eq_some_iff.mp hs
      exact ⟨_, .single (scan_goto t temp hne hnext) fun _ => rfl, .of_eq rfl rfl⟩
  | leaving | unlinked =>
    obtain rfl := Option.some.inj hs
    exact ⟨_, .refl _ _ _, .done rfl⟩
  | walking rtemp temp =>
    obtain ⟨dummy, hnext, rfl⟩ := Option.map_eq_some_iff.mp hs
    have hwalk := walk_goto t rtemp hnext
    split
    · next htag =>
      exact ⟨_, .single (hwalk.trans (if_pos htag)) fun _ => rfl, .of_eq rfl rfl⟩
    · next htag =>
      rw [if_neg htag] at hwalk
      split
      · next hend =>
        exact ⟨_, .single (hwalk.trans (if_pos hend)) fun _ => rfl, .of_eq rfl rfl⟩
      · next hend =>
        exact ⟨_, .single (hwalk.trans (if_neg hend)) fun _ => rfl, .of_eq rfl rfl⟩
  | check rtemp =>
    have hrecheck : (s.hook.goto (.missed rtemp)).step t .recheck = some (s.hook.goto
        (if some rtemp ≠ s.hook.root then .looked s.hook.root else .asleep)) := rfl
    rw [destroyStep] at hs
    split at hs
    · next hroot =>
      obtain rfl := Option.some.inj hs
      rw [if_pos hroot] at hrecheck
      exact ⟨_, .single hrecheck fun _ => rfl, .of_eq rfl rfl⟩
    · next hroot =>
      obtain rfl := Option.some.inj hs
      rw [if_neg hroot] at hrecheck
      exact ⟨_, .single hrecheck fun _ => rfl, .of_eq rfl rfl⟩
  | asleep => cases hs
  | woken =>
    obtain ⟨-, hs⟩ := Option.ite_none_right_eq_some.mp hs
    obtain rfl := Option.some.inj hs
    have hwake : Sections t ok (s.hook.goto .asleep) (s.hook.goto .start) :=
      .single (b := .wake) rfl fun _ => rfl
    exact ⟨_, hwake.trans (.single (b := .look) rfl fun _ => rfl), .of_eq rfl rfl⟩

/-- The root matters only inside of a section. -/
theorem destroyAt_of_not_inside {pc : DestroyAt} (hinside : pc.inside = false)
    (r r' : Option ℕ) : pc.inSections r = pc.inSections r' := by
  cases pc with
  | again => cases hinside
  | enter | read _ | looked _ | freed _ _ | relocked _ _ | scanning _ _ _ | leaving | walking _ _
  | missed _ | check _ | asleep | woken | unlinked => rfl

/-- Behind a signal a destruction is where it was. -/
theorem signal_destroy (t : ℕ) (pc : DestroyAt) (root : Option ℕ) : ∃ pc',
    (LinkCall.destroy t pc).signal = .destroy t pc' ∧ pc'.inSections root = pc.inSections root := by
  cases pc with
  | asleep => exact ⟨.woken, rfl, rfl⟩
  | enter | again | read _ | looked _ | freed _ _ | relocked _ _ | scanning _ _ _ | leaving
  | walking _ _ | missed _ | check _ | woken | unlinked => exact ⟨_, rfl, rfl⟩

/-- **An operation of an insertion** beside a destruction. -/
theorem Unlinks.insert {x : Hooked} (h : s.call ≠ .idle → s.Inv) (hx : Unlinks t s x)
    (hs : Inserts s s') : ∃ y, Sections t (s.notReused .insert) x y ∧ Unlinks t s' y := by
  cases hs with
  | lock _ _ | unlock _ =>
    cases hx with
    | destroy hcall => exact ⟨_, .refl _ _ _, .destroy hcall⟩
    | done hcall => exact ⟨_, .refl _ _ _, .done hcall⟩
  | @link b hat hinsert =>
    cases hx with
    | @destroy pc hcall =>
      have hinside : pc.inside = false := by
        have hexclusive := (h (by simp [hcall])).disciplined.exclusive (by simp [hat])
        rwa [hcall] at hexclusive
      have hscanning : ∀ r temp c, pc.inSections s.hook.root ≠ .scanning r temp c := by
        cases pc with
        | scanning _ _ _ => cases hinside
        | enter | again | read _ | looked _ | freed _ _ | relocked _ _ | leaving | walking _ _
        | missed _ | check _ | asleep | woken | unlinked => simp [DestroyAt.inSections]
      refine ⟨_, .single (link_goto t hscanning hinsert) ?_, .of_eq hcall ?_⟩
      · unfold notReused
        rw [hat, hcall]
        cases pc with
        | freed _ _ => exact id
        | relocked _ _ => cases hinside
        | enter | again | read _ | looked _ | scanning _ _ _ | leaving | walking _ _ | missed _
        | check _ | asleep | woken | unlinked => exact fun _ => rfl
      · rw [destroyAt_of_not_inside hinside (s.hook.linked b).root s.hook.root]
    | done hcall =>
      have hlink := link_goto t (d := .done) (by simp) hinsert
      exact ⟨_, .single hlink fun _ => rfl, .done hcall⟩
  | signal _ =>
    cases hx with
    | @destroy pc hcall =>
      obtain ⟨pc', hsignal, hpc⟩ := signal_destroy t pc s.hook.root
      rw [← hcall] at hsignal
      exact ⟨_, .refl _ _ _, .of_eq hsignal (congrArg s.hook.goto hpc)⟩
    | done hcall => exact ⟨_, .refl _ _ _, .done (by rw [hcall]; rfl)⟩

/-- **A step beside a destruction.** -/
theorem Unlinks.step {a : LockedAct} {x : Hooked} (h : s.call ≠ .idle → s.Inv)
    (hx : Unlinks t s x) (hs : s.within a = some s') :
    ∃ y, Sections t (s.notReused a) x y ∧ Unlinks t s' y := by
  obtain ⟨hwithin, hs⟩ := restrict_eq_some.mp hs
  cases a with
  | malloc b next =>
    obtain ⟨-, hs⟩ := Option.ite_none_right_eq_some.mp hs
    obtain ⟨hook, hhook, rfl⟩ := Option.map_eq_some_iff.mp hs
    cases hx with
    | @destroy pc hcall =>
      obtain ⟨hmalloc, hroot⟩ := malloc_goto t (pc.inSections s.hook.root) hhook
      exact ⟨_, .single hmalloc fun _ => rfl, .of_eq hcall (by rw [hroot])⟩
    | done hcall =>
      exact ⟨_, .single (malloc_goto t .done hhook).1 fun _ => rfl, .done hcall⟩
  | insert => exact hx.insert h (inserts hs)
  | go =>
    cases hx with
    | destroy hcall =>
      rw [Locked.step, hcall] at hs
      exact Unlinks.go hcall hs
    | done hcall =>
      rw [Locked.step, hcall] at hs
      cases hs
  | spurious =>
    cases hx with
    | @destroy pc hcall =>
      rw [Locked.step, hcall] at hs
      cases pc with
      | asleep =>
        obtain rfl := Option.some.inj hs
        exact ⟨_, .refl _ _ _, .of_eq rfl rfl⟩
      | enter | again | read _ | looked _ | freed _ _ | relocked _ _ | scanning _ _ _ | leaving
      | walking _ _ | missed _ | check _ | woken | unlinked => cases hs
    | done hcall =>
      rw [Locked.step, hcall] at hs
      cases hs
  | search u | destroy u => cases hwithin

/-- After a call there is no other. -/
theorem idle_of_within {a : LockedAct} (hidle : s.call = .idle) (hs : s.within a = some s') :
    s'.call = .idle := by
  obtain ⟨hwithin, hs⟩ := restrict_eq_some.mp hs
  cases a with
  | malloc b next =>
    obtain ⟨-, hs⟩ := Option.ite_none_right_eq_some.mp hs
    obtain ⟨hook, -, rfl⟩ := Option.map_eq_some_iff.mp hs
    exact hidle
  | insert =>
    cases inserts hs with
    | lock _ _ | link _ _ | unlock _ => exact hidle
    | signal _ => exact congrArg LinkCall.signal hidle
  | go | spurious =>
    rw [Locked.step, hidle] at hs
    cases hs
  | search u | destroy u => cases hwithin

/-- A destruction keeps the discipline until it has returned. -/
theorem inv_of_within {a : LockedAct} (h : s.call ≠ .idle → s.Inv) (hs : s.within a = some s') :
    s'.call ≠ .idle → s'.Inv := by
  intro hcall'
  have hcall : s.call ≠ .idle := fun hidle => hcall' (idle_of_within hidle hs)
  refine (h hcall).step ?_ (restrict_eq_some.mp hs).2
  unfold careful
  split
  · next t hcall =>
    -- the last operation of the destruction
    have hgo := (restrict_eq_some.mp hs).2
    rw [Locked.step, hcall] at hgo
    obtain rfl := Option.some.inj hgo
    exact absurd rfl hcall'
  · rfl

/-- A call at its start is there in both ways. -/
theorem sought_enter (s : Locked) : s.sought .enter = ⟨s.hook.goto .start, .start⟩ := by
  rw [sought]
  cases s.insertAt <;> rfl

end Locked

section Calls

open Locked

variable {t : ℕ} {s₀ s : Locked}

/-- **A search beside insertions, in both ways**: where it gets to one operation at a time, it gets
to a section at a time. -/
theorem search_in_sections (hinv : s₀.Inv) (hcall : s₀.call = .search t .enter)
    (hs : Reaches Locked.within s₀ s) :
    ∃ x, Reaches (Sought.step t) ⟨s₀.hook.goto .start, .start⟩ x ∧ Seeks t s x := by
  obtain ⟨x, hx, -, hseeks⟩ := hs.simulates (R := fun s x => s.Inv ∧ Seeks t s x)
    (fun u a v x ⟨hu, hx⟩ ha => by
      obtain ⟨y, hxy, hy⟩ := hx.step hu ha
      exact ⟨y, hxy, hx.inv hu ha, hy⟩) ⟨hinv, .of_eq hcall (sought_enter s₀)⟩
  exact ⟨x, hx, hseeks⟩

/-- **A destruction beside insertions, in both ways**; and no freed block is linked in the one where
none is in the other. -/
theorem destroy_in_sections (hinv : s₀.Inv) (hcall : s₀.call = .destroy t .enter) :
    (Reaches Locked.within s₀ s →
      ∃ y, Reaches (Hooked.step t) (s₀.hook.goto .start) y ∧ Unlinks t s y) ∧
    (Reaches (restrict (fun s a => s.notReused a = true) Locked.within) s₀ s →
      ∃ y, Reaches (Hooked.careful t) (s₀.hook.goto .start) y ∧ Unlinks t s y) := by
  constructor
  · intro hs
    obtain ⟨y, hy, -, hunlinks⟩ := hs.simulates
      (R := fun s x => (s.call ≠ .idle → s.Inv) ∧ Unlinks t s x)
      (fun u a v x ⟨hu, hx⟩ ha => by
        obtain ⟨y, hxy, hy⟩ := hx.step hu ha
        exact ⟨y, hxy.1, inv_of_within hu ha, hy⟩) ⟨fun _ => hinv, .of_eq hcall rfl⟩
    exact ⟨y, hy, hunlinks⟩
  · intro hs
    obtain ⟨y, hy, -, hunlinks⟩ := hs.simulates
      (R := fun s x => (s.call ≠ .idle → s.Inv) ∧ Unlinks t s x)
      (fun u a v x ⟨hu, hx⟩ ha => by
        obtain ⟨hok, ha⟩ := restrict_eq_some.mp ha
        obtain ⟨y, hxy, hy⟩ := hx.step hu ha
        exact ⟨y, hxy.2 hok, inv_of_within hu ha, hy⟩) ⟨fun _ => hinv, .of_eq hcall rfl⟩
    exact ⟨y, hy, hunlinks⟩

variable {init todo : List Link}

/-- **A search that sleeps misses no link**, unless an insertion is about to wake it up; and one
that has returned has found its link. -/
theorem asleep_without_link (hinv : s₀.Inv) (hcall : s₀.call = .search t .enter)
    (hinit : (s₀.hook.goto .start).Initial t init todo) (hs : Reaches Locked.within s₀ s) :
    ∃ as ls, s.hook.Listed s.hook.root as none ls ∧ (s.hook.todo ++ ls).Perm (todo ++ init) ∧
      (s.call = .search t .asleep → s.insertAt ≠ .linked → t ∉ ls.map Link.tag) ∧
      (s.call = .idle → t ∈ ls.map Link.tag) := by
  obtain ⟨x, hx, hseeks⟩ := search_in_sections hinv hcall hs
  obtain ⟨as, ls, hx, hperm⟩ := Sought.Inv.of_reaches hinit rfl hx
  have hplace := hx.place
  rw [Sought.Place] at hplace
  cases hseeks with
  | @search pc hpc =>
    refine ⟨as, ls, Hooked.listed_goto.mp hx.list, hperm, fun hasleep hat => ?_, fun hidle => ?_⟩
    · obtain rfl : pc = .asleep := by
        rw [hpc] at hasleep
        injection hasleep
      have hsearch : (s.sought .asleep).search = .asleep := by
        rw [sought]
        cases hpc : s.insertAt with
        | linked => exact absurd hpc hat
        | outside | locked | signalled => rfl
      rwa [hsearch] at hplace
    · rw [hpc] at hidle
      cases hidle
  | found temp hidle =>
    refine ⟨as, ls, Hooked.listed_goto.mp hx.list, hperm, fun hasleep => ?_, fun _ => ?_⟩
    · rw [hidle] at hasleep
      cases hasleep
    · obtain ⟨hmem, htag⟩ := hplace
      obtain ⟨n, hn⟩ := List.getElem?_of_mem hmem
      exact List.mem_map.mpr ⟨_, List.mem_of_getElem? (hx.list.link_eq hn), htag⟩

/-- **A destruction that has returned loses no link**, if no insertion linked the block of the root
it had freed before it had unlinked that. -/
theorem destroyed_without_loss (hinv : s₀.Inv) (hcall : s₀.call = .destroy t .enter)
    (hinit : (s₀.hook.goto .start).Initial t init todo) (hdistinct : (init.map Link.tag).Nodup)
    (hpresent : t ∈ init.map Link.tag) (hother : t ∉ todo.map Link.tag)
    (hs : Reaches (restrict (fun s a => s.notReused a = true) Locked.within) s₀ s)
    (hidle : s.call = .idle) (htodo : s.hook.todo = []) :
    s.hook.Holds (todo ++ init.filter (·.tag ≠ t)) := by
  obtain ⟨y, ⟨acts, hy⟩, hunlinks⟩ := (destroy_in_sections hinv hcall).2 hs
  obtain ⟨kept, hkept, hperm⟩ := (hinit.inv hdistinct hpresent hother).run_kept hy
  cases hunlinks with
  | destroy hpc =>
    rw [hidle] at hpc
    cases hpc
  | done _ =>
    have hall : kept.Perm (todo ++ init.filter (·.tag ≠ t)) := by
      have hrest : (s.hook.goto .done).todo = [] := htodo
      rwa [hrest, List.nil_append, hinit.todo] at hperm
    exact (hkept.holds_iff rfl).mpr hall

end Calls

end Libdsys
