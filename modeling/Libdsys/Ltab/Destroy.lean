import Libdsys.Ltab.Tags
import Libdsys.Machinery.Chain

/-!
# Ltab/Destroy — removing a link while others are inserted

`__bc_link_destroy` takes its snapshot of the root under the hook's lock, and lets go of it.  A
link that is not the root is unlinked where it stands: insertions happen at the root, out of its
way.  The root is freed first and unlinked in a second lock section, which tells by its address
whether links were inserted meanwhile — but the block is free by then, and an insertion may have
been given it.

* `Listed` — what is known of a stretch of the list, and that insertions keep it.
* `Hooked.Inv` — how far the destruction has come, and the list it has come to.
* `link_kept_iff` — no link is lost exactly where no insertion links the freed block before it is
  unlinked.
* `link_lost` — a run in which one does.
-/

open Machinery

namespace Libdsys

/-- A block that holds a `bc_link_t`. -/
structure LinkNode where
  link : Link
  next : Option ℕ
deriving Repr, DecidableEq

/-- Where the service thread stands in `__bc_link_destroy`. -/
inductive Destroy
  /-- At `again`. -/
  | start
  /-- It has read the root. -/
  | looked (rtemp : Option ℕ)
  /-- It goes through the links from the root on. -/
  | walking (rtemp temp : ℕ)
  /-- The link is not among them. -/
  | missed (rtemp : ℕ)
  /-- It sleeps until a link is inserted. -/
  | asleep
  /-- It has freed the root it read. -/
  | freed (rtemp : ℕ) (temp : Option ℕ)
  /-- It looks for the link before that, and holds the lock. -/
  | scanning (rtemp : ℕ) (temp : Option ℕ) (dummy : ℕ)
  | done
deriving Repr, DecidableEq

/-- A hook, the memory its links are in, and the two threads that change it. -/
structure Hooked where
  mem : ℕ → LinkNode
  /-- The blocks in use. -/
  live : ℕ → Bool
  /-- `dummy.next`. -/
  root : Option ℕ
  /-- The links the computation thread has still to insert. -/
  todo : List Link
  /-- The block it has been given for the first of them. -/
  insert : Option ℕ
  destroy : Destroy

inductive HookedAct
  /-- `bc_malloc` of a link, and its fields; `next` is what the block happens to hold. -/
  | malloc (a : ℕ) (next : Option ℕ)
  /-- The lock section of an insertion. -/
  | link
  /-- The first lock section of a destruction. -/
  | look
  /-- The root's tag; the root is freed if it is the one. -/
  | compare
  /-- Once round the loop through the internal links. -/
  | walk
  /-- The lock section behind a miss. -/
  | recheck
  /-- The wait ends. -/
  | wake
  /-- The second lock section, up to its loop. -/
  | unlink
  /-- Once round that loop. -/
  | scan
deriving DecidableEq

namespace Hooked

/-- The `next` pointers. -/
def next (s : Hooked) (a : ℕ) : Option ℕ := (s.mem a).next

/-- `mem[a].next = next`. -/
def setNext (s : Hooked) (a : ℕ) (next : Option ℕ) : Hooked :=
  { s with mem := Function.update s.mem a { s.mem a with next } }

/-- `bc_free`. -/
def free (s : Hooked) (a : ℕ) : Hooked := { s with live := Function.update s.live a false }

/-- The service thread goes on at `d`. -/
def goto (s : Hooked) (d : Destroy) : Hooked := { s with destroy := d }

/-- The destruction of tag `t` and the insertions, a step at a time; `none` is also a `NULL` that
is followed.  The unlocking of a mutex the thread does not hold, behind an internal link, is
nothing. -/
def step (t : ℕ) (s : Hooked) : HookedAct → Option Hooked
  | .malloc a next =>
    match s.insert, s.todo with
    | none, link :: _ =>
      if s.live a then none
      else some { s with
        mem := Function.update s.mem a ⟨link, next⟩
        live := Function.update s.live a true
        insert := some a }
    | _, _ => none
  | .link =>
    match s.insert, s.destroy with
    | _, .scanning _ _ _ => none
    | some a, _ =>
      some { s.setNext a s.root with root := some a, todo := s.todo.tail, insert := none }
    | none, _ => none
  | .look =>
    match s.destroy with
    | .start => some (s.goto (.looked s.root))
    | _ => none
  | .compare =>
    match s.destroy with
    | .looked (some rtemp) =>
      if (s.mem rtemp).link.tag = t then
        some ((s.free rtemp).goto (.freed rtemp (s.next rtemp)))
      else some (s.goto (.walking rtemp rtemp))
    | _ => none
  | .walk =>
    match s.destroy with
    | .walking rtemp temp =>
      match s.next temp with
      | none => none
      | some dummy =>
        if (s.mem dummy).link.tag = t then
          some (((s.setNext temp (s.next dummy)).free dummy).goto .done)
        else if s.next dummy = none then some (s.goto (.missed rtemp))
        else some (s.goto (.walking rtemp dummy))
    | _ => none
  | .recheck =>
    match s.destroy with
    | .missed rtemp => some (s.goto (if some rtemp ≠ s.root then .looked s.root else .asleep))
    | _ => none
  | .wake =>
    match s.destroy with
    | .asleep => some (s.goto .start)
    | _ => none
  | .unlink =>
    match s.destroy with
    | .freed rtemp temp =>
      if some rtemp = s.root then some ({ s with root := temp }.goto .done)
      else
        match s.root with
        | none => none
        | some dummy => some (s.goto (.scanning rtemp temp dummy))
    | _ => none
  | .scan =>
    match s.destroy with
    | .scanning rtemp temp dummy =>
      if s.next dummy = some rtemp then some ((s.setNext dummy temp).goto .done)
      else
        match s.next dummy with
        | none => none
        | some dummy => some (s.goto (.scanning rtemp temp dummy))
    | _ => none

/-- The state after an allocation. -/
def allocated (s : Hooked) (a : ℕ) (link : Link) (next : Option ℕ) : Hooked :=
  { s with
    mem := Function.update s.mem a ⟨link, next⟩
    live := Function.update s.live a true
    insert := some a }

/-- The state after the lock section of an insertion. -/
def linked (s : Hooked) (a : ℕ) : Hooked :=
  { s.setNext a s.root with root := some a, todo := s.todo.tail, insert := none }

/-- **What a step can be**, and what is true before it. -/
inductive StepIs (t : ℕ) (s : Hooked) : HookedAct → Hooked → Prop
  | malloc {a next link rest} (hinsert : s.insert = none) (htodo : s.todo = link :: rest)
    (hlive : s.live a = false) : StepIs t s (.malloc a next) (s.allocated a link next)
  | link {a} (hinsert : s.insert = some a) (hfree : ∀ r temp d, s.destroy ≠ .scanning r temp d) :
    StepIs t s .link (s.linked a)
  | look (hd : s.destroy = .start) : StepIs t s .look (s.goto (.looked s.root))
  | freed {r} (hd : s.destroy = .looked (some r)) (htag : (s.mem r).link.tag = t) :
    StepIs t s .compare ((s.free r).goto (.freed r (s.next r)))
  | other {r} (hd : s.destroy = .looked (some r)) (htag : (s.mem r).link.tag ≠ t) :
    StepIs t s .compare (s.goto (.walking r r))
  | found {r temp d} (hd : s.destroy = .walking r temp) (hnext : s.next temp = some d)
    (htag : (s.mem d).link.tag = t) :
    StepIs t s .walk (((s.setNext temp (s.next d)).free d).goto .done)
  | missed {r temp d} (hd : s.destroy = .walking r temp) (hnext : s.next temp = some d)
    (htag : (s.mem d).link.tag ≠ t) (hend : s.next d = none) : StepIs t s .walk (s.goto (.missed r))
  | onward {r temp d} (hd : s.destroy = .walking r temp) (hnext : s.next temp = some d)
    (htag : (s.mem d).link.tag ≠ t) (hend : s.next d ≠ none) :
    StepIs t s .walk (s.goto (.walking r d))
  | again {r} (hd : s.destroy = .missed r) (hroot : some r ≠ s.root) :
    StepIs t s .recheck (s.goto (.looked s.root))
  | sleep {r} (hd : s.destroy = .missed r) (hroot : some r = s.root) :
    StepIs t s .recheck (s.goto .asleep)
  | wake (hd : s.destroy = .asleep) : StepIs t s .wake (s.goto .start)
  | unlinked {r temp} (hd : s.destroy = .freed r temp) (hroot : some r = s.root) :
    StepIs t s .unlink ({ s with root := temp }.goto .done)
  | behind {r temp d} (hd : s.destroy = .freed r temp) (hne : some r ≠ s.root)
    (hroot : s.root = some d) : StepIs t s .unlink (s.goto (.scanning r temp d))
  | joined {r temp d} (hd : s.destroy = .scanning r temp d) (hnext : s.next d = some r) :
    StepIs t s .scan ((s.setNext d temp).goto .done)
  | scan {r temp d c} (hd : s.destroy = .scanning r temp d) (hne : s.next d ≠ some r)
    (hnext : s.next d = some c) : StepIs t s .scan (s.goto (.scanning r temp c))

theorem stepIs {t : ℕ} {s s' : Hooked} {a : HookedAct} (h : s.step t a = some s') :
    StepIs t s a s' := by
  rcases a with ⟨a, next⟩ | _ | _ | _ | _ | _ | _ | _ | _ <;> rw [step] at h <;> split at h <;>
    try cases h
  · next hinsert htodo =>
    obtain ⟨hlive, h⟩ := Option.ite_none_left_eq_some.mp h
    cases h
    exact .malloc hinsert htodo (Bool.eq_false_iff.mpr hlive)
  · next hinsert hfree => exact .link hinsert hfree
  · next hd => exact .look hd
  · next r hd =>
    split at h <;> cases h
    · next htag => exact .freed hd htag
    · next htag => exact .other hd htag
  · next r temp hd =>
    split at h
    · cases h
    · next d hnext =>
      split at h
      · next htag => cases h; exact .found hd hnext htag
      · next htag =>
        split at h <;> cases h
        · next hend => exact .missed hd hnext htag hend
        · next hend => exact .onward hd hnext htag hend
  · next r hd =>
    split
    · next hroot => exact .again hd hroot
    · next hroot => exact .sleep hd (not_not.mp hroot)
  · next hd => exact .wake hd
  · next r temp hd =>
    split at h
    · next hroot => cases h; exact .unlinked hd hroot
    · next hne =>
      split at h <;> cases h
      next d hroot => exact .behind hd hne hroot
  · next r temp d hd =>
    split at h
    · next hnext => cases h; exact .joined hd hnext
    · next hne =>
      split at h <;> cases h
      next c hnext => exact .scan hd hne hnext

/-- All calls have returned. -/
def Finished (s : Hooked) : Prop := s.destroy = .done ∧ s.todo = [] ∧ s.insert = none

/-- **An insertion does not link the block of the freed root** before the root is unlinked. -/
def notReused (s : Hooked) (a : HookedAct) : Bool :=
  match a, s.destroy with
  | .link, .freed rtemp _ => s.insert != some rtemp
  | _, _ => true

/-- The steps that leave the freed root's block alone. -/
def careful (t : ℕ) : Hooked → HookedAct → Option Hooked :=
  restrict (fun s a => s.notReused a = true) (step t)

/-! ## A stretch of the list -/

/-- From `r` through the blocks `as`, in use and linked, to `e`, and the links in them. -/
structure Listed (s : Hooked) (r : Option ℕ) (as : List ℕ) (e : Option ℕ) (ls : List Link) :
    Prop where
  chain : Chain s.next r as e
  links : as.map (fun a => (s.mem a).link) = ls
  live : ∀ a ∈ as, s.live a = true
  fresh : ∀ a ∈ as, s.insert ≠ some a

variable {s s' : Hooked} {t : ℕ} {r e : Option ℕ} {as bs : List ℕ} {ls ls' kept : List Link}

theorem next_setNext (s : Hooked) (a : ℕ) (v : Option ℕ) :
    (s.setNext a v).next = Function.update s.next a v := by
  funext b
  rcases eq_or_ne b a with rfl | hne
  · simp [next, setNext]
  · simp [next, setNext, hne]

@[simp] theorem link_setNext (s : Hooked) (a : ℕ) (v : Option ℕ) (b : ℕ) :
    ((s.setNext a v).mem b).link = (s.mem b).link := by
  rcases eq_or_ne b a with rfl | hne
  · simp [setNext]
  · simp [setNext, hne]

namespace Listed

theorem append_iff : s.Listed r (as ++ bs) e ls ↔
    ∃ m ls₁ ls₂, s.Listed r as m ls₁ ∧ s.Listed m bs e ls₂ ∧ ls = ls₁ ++ ls₂ := by
  constructor
  · intro h
    obtain ⟨m, has, hbs⟩ := chain_append.mp h.chain
    refine ⟨m, _, _, ⟨has, rfl, fun a ha => ?_, fun a ha => ?_⟩,
      ⟨hbs, rfl, fun a ha => ?_, fun a ha => ?_⟩, ?_⟩
    · exact h.live a (List.mem_append_left _ ha)
    · exact h.fresh a (List.mem_append_left _ ha)
    · exact h.live a (List.mem_append_right _ ha)
    · exact h.fresh a (List.mem_append_right _ ha)
    · rw [← h.links, List.map_append]
  · rintro ⟨m, ls₁, ls₂, h₁, h₂, rfl⟩
    refine ⟨chain_append.mpr ⟨m, h₁.chain, h₂.chain⟩, ?_, fun a ha => ?_, fun a ha => ?_⟩
    · rw [List.map_append, h₁.links, h₂.links]
    · exact (List.mem_append.mp ha).elim (h₁.live a) (h₂.live a)
    · exact (List.mem_append.mp ha).elim (h₁.fresh a) (h₂.fresh a)

theorem cons_iff {a : ℕ} : s.Listed r (a :: as) e ls ↔ r = some a ∧ s.live a = true ∧
    s.insert ≠ some a ∧ ∃ ls', s.Listed (s.next a) as e ls' ∧ ls = (s.mem a).link :: ls' := by
  constructor
  · intro h
    obtain ⟨hr, hchain⟩ := h.chain
    refine ⟨hr, h.live a List.mem_cons_self, h.fresh a List.mem_cons_self, _,
      ⟨hchain, rfl, fun b hb => h.live b (List.mem_cons_of_mem _ hb),
        fun b hb => h.fresh b (List.mem_cons_of_mem _ hb)⟩, h.links.symm⟩
  · rintro ⟨rfl, hlive, hfresh, ls', h, rfl⟩
    exact ⟨⟨rfl, h.chain⟩, congrArg (_ :: ·) h.links, List.forall_mem_cons.mpr ⟨hlive, h.live⟩,
      List.forall_mem_cons.mpr ⟨hfresh, h.fresh⟩⟩

/-- A block points to the next one. -/
theorem next_eq {a b : ℕ} {pre post : List ℕ} (h : s.Listed r (pre ++ a :: b :: post) e ls) :
    s.next a = some b := (chain_append.mp h.chain).choose_spec.2.2.1

/-- …and the last one to the end. -/
theorem next_last {a : ℕ} {pre : List ℕ} (h : s.Listed r (pre ++ [a]) e ls) : s.next a = e :=
  (chain_append.mp h.chain).choose_spec.2.2

/-- A stretch depends on its own blocks. -/
theorem congr (h : s.Listed r as e ls) (hmem : ∀ a ∈ as, s'.mem a = s.mem a)
    (hlive : ∀ a ∈ as, s'.live a = s.live a) (hfresh : ∀ a ∈ as, s'.insert ≠ some a) :
    s'.Listed r as e ls where
  chain := h.chain.congr fun a ha => congrArg LinkNode.next (hmem a ha)
  links := by
    rw [← h.links]
    exact List.map_congr_left fun a ha => congrArg LinkNode.link (hmem a ha)
  live a ha := (hlive a ha).trans (h.live a ha)
  fresh := hfresh

end Listed

/-! ## How far the destruction has come -/

/-- The list still has tag `t`, once; `kept` is what it is without. -/
def Whole (t : ℕ) (s : Hooked) (as : List ℕ) (kept : List Link) : Prop :=
  ∃ ls, s.Listed s.root as none ls ∧ (ls.map Link.tag).count t = 1 ∧ kept = ls.filter (·.tag ≠ t)

/-- The root `r` is freed: the list is what leads to its block and what came behind it. -/
structure Cutting (s : Hooked) (r : ℕ) (temp : Option ℕ) (pre post : List ℕ) (kept : List Link) :
    Prop where
  front : ∃ ls ls', s.Listed s.root pre (some r) ls ∧ s.Listed temp post none ls' ∧ kept = ls ++ ls'
  nodup : (pre ++ post).Nodup
  gone : r ∉ pre ++ post

/-- **The phases of a destruction**: `kept` is the list it will leave, as things stand. -/
def Phase (t : ℕ) (s : Hooked) (kept : List Link) : Prop :=
  match s.destroy with
  | .start => ∃ as, s.Whole t as kept ∧ ∃ a ∈ as, (s.mem a).link.tag = t
  | .looked rtemp => ∃ pre r post, rtemp = some r ∧ s.Whole t (pre ++ r :: post) kept ∧
      ∃ a ∈ r :: post, (s.mem a).link.tag = t
  | .walking _ temp => ∃ pre post, s.Whole t (pre ++ temp :: post) kept ∧
      ∃ a ∈ post, (s.mem a).link.tag = t
  | .missed _ => False
  | .asleep => False
  | .freed rtemp temp => ∃ pre post, s.Cutting rtemp temp pre post kept
  | .scanning rtemp temp dummy => ∃ pre pre' post,
      s.Cutting rtemp temp (pre ++ dummy :: pre') post kept
  | .done => ∃ as, s.Listed s.root as none kept

/-- **The invariant.** -/
structure Inv (t : ℕ) (s : Hooked) (kept : List Link) : Prop where
  phase : s.Phase t kept
  todo : t ∉ s.todo.map Link.tag
  insert : ∀ a, s.insert = some a → s.live a = true ∧ s.todo.head? = some (s.mem a).link

/-- What a list is without the only link of a tag. -/
theorem filter_eq_append {l : Link} (hl : l.tag = t)
    (hone : ((ls ++ l :: ls').map Link.tag).count t = 1) :
    (ls ++ l :: ls').filter (·.tag ≠ t) = ls ++ ls' := by
  subst hl
  rw [List.map_append, List.map_cons, List.count_append, List.count_cons_self] at hone
  have hkeep (xs : List Link) (hxs : (xs.map Link.tag).count l.tag = 0) :
      xs.filter (·.tag ≠ l.tag) = xs := by
    refine List.filter_eq_self.mpr fun x hx => ?_
    have hne : x.tag ≠ l.tag := fun heq =>
      List.count_eq_zero.mp hxs (heq ▸ List.mem_map_of_mem hx)
    simpa using hne
  rw [List.filter_append, List.filter_cons_of_neg (by simp), hkeep ls (by omega),
    hkeep ls' (by omega)]

@[simp] theorem listed_goto {d : Destroy} : (s.goto d).Listed r as e ls ↔ s.Listed r as e ls :=
  ⟨fun ⟨h₁, h₂, h₃, h₄⟩ => ⟨h₁, h₂, h₃, h₄⟩, fun ⟨h₁, h₂, h₃, h₄⟩ => ⟨h₁, h₂, h₃, h₄⟩⟩

@[simp] theorem whole_goto {d : Destroy} : (s.goto d).Whole t as kept ↔ s.Whole t as kept := by
  simp only [Whole, listed_goto]
  rfl

@[simp] theorem cutting_goto {d : Destroy} {b : ℕ} {temp : Option ℕ} {pre post : List ℕ} :
    (s.goto d).Cutting b temp pre post kept ↔ s.Cutting b temp pre post kept := by
  constructor
  · rintro ⟨hfront, hnodup, hgone⟩
    simp only [listed_goto] at hfront
    exact ⟨hfront, hnodup, hgone⟩
  · rintro ⟨hfront, hnodup, hgone⟩
    refine ⟨?_, hnodup, hgone⟩
    simp only [listed_goto]
    exact hfront

namespace Phase

/-- What changes no stretch of the list changes no phase. -/
theorem congr (h : s.Phase t kept) (hdestroy : s'.destroy = s.destroy) (hroot : s'.root = s.root)
    (hlisted : ∀ r as e ls, s.Listed r as e ls → s'.Listed r as e ls ∧
      ∀ a ∈ as, (s'.mem a).link = (s.mem a).link) : s'.Phase t kept := by
  have hwhole {as} (h : s.Whole t as kept) : s'.Whole t as kept ∧
      ∀ a ∈ as, (s'.mem a).link = (s.mem a).link := by
    obtain ⟨ls, hls, hone, hkept⟩ := h
    obtain ⟨hls', hsame⟩ := hlisted _ _ _ _ hls
    exact ⟨⟨ls, hroot ▸ hls', hone, hkept⟩, hsame⟩
  have hcutting {r temp pre post} (h : s.Cutting r temp pre post kept) :
      s'.Cutting r temp pre post kept := by
    obtain ⟨⟨ls, ls', hpre, hpost, hkept⟩, hnodup, hgone⟩ := h
    exact ⟨⟨ls, ls', hroot ▸ (hlisted _ _ _ _ hpre).1, (hlisted _ _ _ _ hpost).1, hkept⟩, hnodup,
      hgone⟩
  rw [Phase] at h ⊢
  rw [hdestroy]
  split at h
  · obtain ⟨as, hw, a, ha, htag⟩ := h
    obtain ⟨hw', hsame⟩ := hwhole hw
    exact ⟨as, hw', a, ha, hsame a ha ▸ htag⟩
  · obtain ⟨pre, r, post, hr, hw, a, ha, htag⟩ := h
    obtain ⟨hw', hsame⟩ := hwhole hw
    exact ⟨pre, r, post, hr, hw', a, ha, hsame a (List.mem_append_right _ ha) ▸ htag⟩
  · obtain ⟨pre, post, hw, a, ha, htag⟩ := h
    obtain ⟨hw', hsame⟩ := hwhole hw
    exact ⟨pre, post, hw', a, ha,
      hsame a (List.mem_append_right _ (List.mem_cons_of_mem _ ha)) ▸ htag⟩
  · exact h
  · exact h
  · obtain ⟨pre, post, hc⟩ := h
    exact ⟨pre, post, hcutting hc⟩
  · obtain ⟨pre, pre', post, hc⟩ := h
    exact ⟨pre, pre', post, hcutting hc⟩
  · obtain ⟨as, hls⟩ := h
    exact ⟨as, hroot ▸ (hlisted _ _ _ _ hls).1⟩

end Phase

theorem mem_linked_of_ne {a b : ℕ} (h : b ≠ a) : (s.linked a).mem b = s.mem b :=
  Function.update_of_ne h _ _

namespace Listed

/-- An allocation touches no block in use. -/
theorem allocated (h : s.Listed r as e ls) {a : ℕ} (hlive : s.live a = false) (link : Link)
    (next : Option ℕ) : (s.allocated a link next).Listed r as e ls ∧
      ∀ b ∈ as, ((s.allocated a link next).mem b).link = (s.mem b).link := by
  have hne b (hb : b ∈ as) : b ≠ a := fun heq => by simp [← heq, h.live b hb] at hlive
  have hmem b (hb : b ∈ as) : (s.allocated a link next).mem b = s.mem b :=
    Function.update_of_ne (hne b hb) _ _
  refine ⟨h.congr hmem (fun b hb => Function.update_of_ne (hne b hb) _ _) fun b hb heq => ?_,
    fun b hb => congrArg LinkNode.link (hmem b hb)⟩
  exact hne b hb (Option.some.inj heq).symm

/-- The block that is linked is in no stretch yet… -/
theorem linked (h : s.Listed r as e ls) {a : ℕ} (ha : s.insert = some a) :
    (s.linked a).Listed r as e ls ∧
      ∀ b ∈ as, ((s.linked a).mem b).link = (s.mem b).link := by
  have hne b (hb : b ∈ as) : b ≠ a := fun heq => h.fresh b hb (heq ▸ ha)
  exact ⟨h.congr (fun b hb => mem_linked_of_ne (hne b hb)) (fun _ _ => rfl) (fun _ _ => nofun),
    fun b _ => link_setNext s a s.root b⟩

/-- …and goes in front of what hung at the root. -/
theorem insert (h : s.Listed s.root as e ls) {a : ℕ} (ha : s.insert = some a)
    (hlive : s.live a = true) :
    (s.linked a).Listed (some a) (a :: as) e ((s.mem a).link :: ls) := by
  have hnext : (s.linked a).next a = s.root := (congrFun (next_setNext s a s.root) a).trans
    (Function.update_self a _ _)
  exact cons_iff.mpr ⟨rfl, hlive, nofun, ls, hnext ▸ (h.linked ha).1,
    congrArg (· :: ls) (link_setNext s a s.root a).symm⟩

end Listed

/-- A whole list stays whole, with the inserted link in front. -/
theorem Whole.linked (h : s.Whole t as kept) {a : ℕ} (ha : s.insert = some a)
    (hlive : s.live a = true) (htag : (s.mem a).link.tag ≠ t) :
    (s.linked a).Whole t (a :: as) ((s.mem a).link :: kept) := by
  obtain ⟨ls, hls, hone, hkept⟩ := h
  refine ⟨(s.mem a).link :: ls, hls.insert ha hlive, ?_, ?_⟩
  · rw [List.map_cons, List.count_cons_of_ne htag, hone]
  · rw [hkept, List.filter_cons_of_pos (by simpa using htag)]

/-- The list that is cut hangs at the root… -/
theorem Cutting.exists_root {temp : Option ℕ} {b : ℕ} {pre post : List ℕ}
    (h : s.Cutting b temp pre post kept) : ∃ d, s.root = some d := by
  obtain ⟨ls, ls', hpre, -⟩ := h.front
  rcases pre with _ | ⟨d, pre⟩
  · exact ⟨b, hpre.chain⟩
  · exact ⟨d, hpre.chain.1⟩

/-- …and goes on behind each of the links before the cut. -/
theorem Cutting.exists_next {temp : Option ℕ} {b d : ℕ} {pre pre' post : List ℕ}
    (h : s.Cutting b temp (pre ++ d :: pre') post kept) : ∃ c, s.next d = some c := by
  obtain ⟨ls, ls', hpre, -⟩ := h.front
  rcases pre' with _ | ⟨c, pre'⟩
  · exact ⟨b, hpre.next_last⟩
  · exact ⟨c, hpre.next_eq⟩

/-- Neither part of a list that is cut has the block that is linked… -/
theorem Cutting.linked {temp : Option ℕ} {b : ℕ} {pre post : List ℕ}
    (h : s.Cutting b temp pre post kept) {a : ℕ} (ha : s.insert = some a)
    (hlive : s.live a = true) (hne : a ≠ b) :
    (s.linked a).Cutting b temp (a :: pre) post ((s.mem a).link :: kept) := by
  obtain ⟨⟨ls, ls', hpre, hpost, hkept⟩, hnodup, hgone⟩ := h
  refine ⟨⟨(s.mem a).link :: ls, ls', hpre.insert ha hlive, (hpost.linked ha).1, by simp [hkept]⟩,
    List.nodup_cons.mpr ⟨fun hmem => ?_, hnodup⟩, ?_⟩
  · rcases List.mem_append.mp hmem with hmem | hmem
    · exact hpre.fresh a hmem ha
    · exact hpost.fresh a hmem ha
  · exact List.not_mem_cons_of_ne_of_not_mem hne.symm hgone

/-- …and where it is the freed root's, all that was inserted is cut off with it. -/
theorem Cutting.relinked {temp : Option ℕ} {a : ℕ} {pre post : List ℕ}
    (h : s.Cutting a temp pre post kept) (ha : s.insert = some a) :
    ∃ kept', (s.linked a).Cutting a temp [] post kept' ∧ kept' <:+ kept := by
  obtain ⟨⟨ls, ls', -, hpost, rfl⟩, hnodup, hgone⟩ := h
  refine ⟨ls', ⟨⟨[], ls', ⟨rfl, rfl, nofun, nofun⟩, (hpost.linked ha).1, rfl⟩, ?_, ?_⟩,
    List.suffix_append ls ls'⟩
  · exact (List.nodup_append.mp hnodup).2.1
  · exact fun hmem => hgone (List.mem_append_right _ hmem)

/-- Without its root, a list falls into two parts. -/
theorem Whole.cutting {r : ℕ} {pre post : List ℕ} (h : s.Whole t (pre ++ r :: post) kept)
    (hr : (s.mem r).link.tag = t) :
    (s.free r).Cutting r (s.next r) pre post kept := by
  obtain ⟨ls, hls, hone, hkept⟩ := h
  have hdistinct := hls.chain.nodup
  obtain ⟨m, ls₁, ls₂, hpre, hpost, rfl⟩ := Listed.append_iff.mp hls
  obtain ⟨rfl, -, -, ls₃, hpost', rfl⟩ := Listed.cons_iff.mp hpost
  obtain ⟨hgone, hboth⟩ := List.nodup_cons.mp (List.nodup_middle.mp hdistinct)
  have hother a (ha : a ∈ pre ++ post) : (s.free r).live a = s.live a :=
    Function.update_of_ne (ne_of_mem_of_not_mem ha hgone) _ _
  refine ⟨⟨ls₁, ls₃, ?_, ?_, ?_⟩, hboth, hgone⟩
  · exact hpre.congr (fun _ _ => rfl) (fun a ha => hother a (List.mem_append_left _ ha)) hpre.fresh
  · exact hpost'.congr (fun _ _ => rfl) (fun a ha => hother a (List.mem_append_right _ ha))
      hpost'.fresh
  · exact hkept.trans (filter_eq_append hr hone)

/-- Bypassing an internal link and freeing it leaves the others. -/
theorem Whole.unlink {a b : ℕ} {pre post : List ℕ} (h : s.Whole t (pre ++ a :: b :: post) kept)
    (hb : (s.mem b).link.tag = t) :
    ((s.setNext a (s.next b)).free b).Listed s.root (pre ++ a :: post) none kept := by
  obtain ⟨ls, hls, hone, hkept⟩ := h
  have hdistinct := hls.chain.nodup
  have hsplit : pre ++ a :: b :: post = (pre ++ [a]) ++ b :: post := by simp
  have hsplit' : pre ++ a :: post = (pre ++ [a]) ++ post := by simp
  have hgone : b ∉ pre ++ a :: post := by
    rw [hsplit] at hdistinct
    rw [hsplit']
    exact (List.nodup_cons.mp (List.nodup_middle.mp hdistinct)).1
  have hsub c (hc : c ∈ pre ++ a :: post) : c ∈ pre ++ a :: b :: post := by
    rw [hsplit'] at hc
    rw [hsplit, List.mem_append, List.mem_cons]
    exact (List.mem_append.mp hc).imp_right Or.inr
  refine ⟨?_, ?_, fun c hc => ?_, fun c hc => hls.fresh c (hsub c hc)⟩
  · change Chain (s.setNext a (s.next b)).next _ _ _
    rw [next_setNext]
    exact hls.chain.cut hdistinct
  · have hlinks : (pre ++ a :: post).map (fun c => ((s.setNext a (s.next b)).mem c).link) =
        (pre ++ a :: post).map fun c => (s.mem c).link :=
      List.map_congr_left fun c _ => link_setNext s a _ c
    refine hlinks.trans ?_
    have hwhole : ls = (pre ++ [a]).map (fun c => (s.mem c).link) ++
        (s.mem b).link :: post.map fun c => (s.mem c).link := by
      rw [← hls.links, hsplit, List.map_append, List.map_cons]
    rw [hkept, hwhole, hsplit', filter_eq_append hb (hwhole ▸ hone), List.map_append]
  · exact (Function.update_of_ne (ne_of_mem_of_not_mem hc hgone) _ _).trans (hls.live c (hsub c hc))

/-- Without the freed root, what leads to its block is joined to what came behind it. -/
theorem Cutting.join {r d : ℕ} {temp : Option ℕ} {pre post : List ℕ}
    (h : s.Cutting r temp (pre ++ [d]) post kept) :
    (s.setNext d temp).Listed s.root (pre ++ d :: post) none kept := by
  obtain ⟨⟨ls, ls', hpre, hpost, hkept⟩, hnodup, -⟩ := h
  obtain ⟨hnodup, -, hdisj⟩ := List.nodup_append.mp hnodup
  have hsplit : pre ++ d :: post = (pre ++ [d]) ++ post := by simp
  refine ⟨?_, ?_, fun a ha => ?_, fun a ha => ?_⟩
  · rw [next_setNext]
    exact hpre.chain.redirect hnodup hpost.chain fun hd => hdisj d (by simp) d hd rfl
  · have hlinks : (pre ++ d :: post).map (fun c => ((s.setNext d temp).mem c).link) =
        (pre ++ d :: post).map fun c => (s.mem c).link :=
      List.map_congr_left fun c _ => link_setNext s d _ c
    rw [hlinks, hsplit, List.map_append, hpre.links, hpost.links, hkept]
  · rw [hsplit] at ha
    exact (List.mem_append.mp ha).elim (hpre.live a) (hpost.live a)
  · rw [hsplit] at ha
    exact (List.mem_append.mp ha).elim (hpre.fresh a) (hpost.fresh a)

namespace Inv

variable {r temp d : ℕ} {next : Option ℕ}

/-! What the invariant says in each phase. -/

theorem of_start (h : s.Inv t kept) (hd : s.destroy = .start) :
    ∃ as, s.Whole t as kept ∧ ∃ a ∈ as, (s.mem a).link.tag = t := by
  simpa only [Phase, hd] using h.phase

theorem of_looked {rtemp : Option ℕ} (h : s.Inv t kept) (hd : s.destroy = .looked rtemp) :
    ∃ pre r post, rtemp = some r ∧ s.Whole t (pre ++ r :: post) kept ∧
      ∃ a ∈ r :: post, (s.mem a).link.tag = t := by
  simpa only [Phase, hd] using h.phase

theorem of_walking (h : s.Inv t kept) (hd : s.destroy = .walking r temp) :
    ∃ pre post, s.Whole t (pre ++ temp :: post) kept ∧ ∃ a ∈ post, (s.mem a).link.tag = t := by
  simpa only [Phase, hd] using h.phase

theorem of_freed (h : s.Inv t kept) (hd : s.destroy = .freed r next) :
    ∃ pre post, s.Cutting r next pre post kept := by
  simpa only [Phase, hd] using h.phase

theorem of_scanning (h : s.Inv t kept) (hd : s.destroy = .scanning r next d) :
    ∃ pre pre' post, s.Cutting r next (pre ++ d :: pre') post kept := by
  simpa only [Phase, hd] using h.phase

theorem of_done (h : s.Inv t kept) (hd : s.destroy = .done) :
    ∃ as, s.Listed s.root as none kept := by
  simpa only [Phase, hd] using h.phase

theorem not_missed (h : s.Inv t kept) : s.destroy ≠ .missed r := fun hd => by
  simpa only [Phase, hd] using h.phase

theorem not_asleep (h : s.Inv t kept) : s.destroy ≠ .asleep := fun hd => by
  simpa only [Phase, hd] using h.phase

/-! What each step keeps. -/

/-- An allocation is the other thread's. -/
theorem malloc (h : s.Inv t kept) {a : ℕ} {link : Link} {rest : List Link}
    (htodo : s.todo = link :: rest) (hlive : s.live a = false) :
    (s.allocated a link next).Inv t kept := by
  refine ⟨h.phase.congr rfl rfl fun r as e ls hls => hls.allocated hlive link next, h.todo,
    fun b hb => ?_⟩
  obtain rfl := Option.some.inj hb
  simp [allocated, htodo]

/-- **An insertion puts its link in front of the list** — or, where its block is that of the freed
root, in front of what the root's successor starts. -/
theorem link_phase (h : s.Inv t kept) {a : ℕ} (ha : s.insert = some a)
    (hfree : ∀ r next d, s.destroy ≠ .scanning r next d) : ∃ kept', (s.linked a).Phase t kept' ∧
      (s.notReused .link = true → kept' = (s.mem a).link :: kept) ∧
      (s.notReused .link = false → kept' <:+ kept) := by
  obtain ⟨hlive, hhead⟩ := h.insert a ha
  have htag : (s.mem a).link.tag ≠ t := fun htag =>
    h.todo (List.mem_map.mpr ⟨_, List.mem_of_mem_head? hhead, htag⟩)
  -- the link goes in front in every phase but one
  have keep (hok : s.notReused .link = true)
      (hphase : (s.linked a).Phase t ((s.mem a).link :: kept)) : ∃ kept',
        (s.linked a).Phase t kept' ∧ (s.notReused .link = true → kept' = (s.mem a).link :: kept) ∧
          (s.notReused .link = false → kept' <:+ kept) :=
    ⟨_, hphase, fun _ => rfl, fun hno => by simp [hok] at hno⟩
  have hlinked : (s.linked a).destroy = s.destroy := rfl
  cases hd : s.destroy with
  | start =>
    obtain ⟨as, hw, b, hb, hbt⟩ := h.of_start hd
    refine keep (by simp [notReused, hd]) ?_
    simp only [Phase, hlinked, hd]
    exact ⟨_, hw.linked ha hlive htag, b, List.mem_cons_of_mem _ hb,
      (link_setNext s a s.root b) ▸ hbt⟩
  | looked rtemp =>
    obtain ⟨pre, r, post, hr, hw, b, hb, hbt⟩ := h.of_looked hd
    refine keep (by simp [notReused, hd]) ?_
    simp only [Phase, hlinked, hd]
    exact ⟨a :: pre, r, post, hr, hw.linked ha hlive htag, b, hb,
      (link_setNext s a s.root b) ▸ hbt⟩
  | walking rtemp temp =>
    obtain ⟨pre, post, hw, b, hb, hbt⟩ := h.of_walking hd
    refine keep (by simp [notReused, hd]) ?_
    simp only [Phase, hlinked, hd]
    exact ⟨a :: pre, post, hw.linked ha hlive htag, b, hb, (link_setNext s a s.root b) ▸ hbt⟩
  | missed rtemp => exact absurd hd h.not_missed
  | asleep => exact absurd hd h.not_asleep
  | freed r next =>
    obtain ⟨pre, post, hc⟩ := h.of_freed hd
    rcases eq_or_ne a r with rfl | hne
    · obtain ⟨kept', hc', hsuffix⟩ := hc.relinked ha
      refine ⟨kept', ?_, fun hok => by simp [notReused, hd, ha] at hok, fun _ => hsuffix⟩
      simp only [Phase, hlinked, hd]
      exact ⟨[], post, hc'⟩
    · refine keep (by simpa [notReused, hd, ha] using hne) ?_
      simp only [Phase, hlinked, hd]
      exact ⟨a :: pre, post, hc.linked ha hlive hne⟩
  | scanning r next d => exact absurd hd (hfree r next d)
  | done =>
    obtain ⟨as, hls⟩ := h.of_done hd
    refine keep (by simp [notReused, hd]) ?_
    simp only [Phase, hlinked, hd]
    exact ⟨a :: as, hls.insert ha hlive⟩

theorem link (h : s.Inv t kept) {a : ℕ} (ha : s.insert = some a)
    (hfree : ∀ r next d, s.destroy ≠ .scanning r next d) :
    ∃ l rest kept', s.todo = l :: rest ∧ (s.linked a).todo = rest ∧ (s.linked a).Inv t kept' ∧
      (s.notReused .link = true → kept' = l :: kept) ∧
      (s.notReused .link = false → kept' <:+ kept) := by
  obtain ⟨rest, htodo⟩ := List.head?_eq_some_iff.mp (h.insert a ha).2
  have hrest : (s.linked a).todo = rest := congrArg List.tail htodo
  have hother := h.todo
  rw [htodo, List.map_cons, List.mem_cons, not_or] at hother
  obtain ⟨kept', hphase, hkept⟩ := h.link_phase ha hfree
  exact ⟨_, rest, kept', htodo, hrest, ⟨hphase, hrest ▸ hother.2, nofun⟩, hkept⟩

/-- What the service thread does leaves the other thread's side alone. -/
theorem of_phase (h : s.Inv t kept) (htodo : s'.todo = s.todo) (hinsert : s'.insert = s.insert)
    (hlive : ∀ a, s.insert = some a → s'.live a = s.live a)
    (hmem : ∀ a, (s'.mem a).link = (s.mem a).link) (hphase : s'.Phase t kept) : s'.Inv t kept where
  phase := hphase
  todo := htodo ▸ h.todo
  insert a ha := by
    rw [hinsert] at ha
    rw [hlive a ha, htodo, hmem a]
    exact h.insert a ha

theorem goto (h : s.Inv t kept) {d : Destroy} (hphase : (s.goto d).Phase t kept) :
    (s.goto d).Inv t kept := h.of_phase rfl rfl (fun _ _ => rfl) (fun _ => rfl) hphase

/-- The block that is freed is not the one to be linked. -/
theorem live_free {a : ℕ} (hfresh : s.insert ≠ some a) (b : ℕ) (hb : s.insert = some b) :
    (s.free a).live b = s.live b :=
  Function.update_of_ne (fun heq => hfresh (hb.trans (congrArg some heq))) _ _

/-- The root is read: the link is in the list that hangs there. -/
theorem look (h : s.Inv t kept) (hd : s.destroy = .start) :
    (s.goto (.looked s.root)).Inv t kept := by
  obtain ⟨as, hw, a, ha, htag⟩ := h.of_start hd
  obtain ⟨r, post, rfl⟩ := List.exists_cons_of_ne_nil (List.ne_nil_of_mem ha)
  exact h.goto ⟨[], r, post, hw.choose_spec.1.chain.1, whole_goto.mpr hw, a, ha, htag⟩

/-- The root is the link to go… -/
theorem freed (h : s.Inv t kept) (hd : s.destroy = .looked (some r))
    (htag : (s.mem r).link.tag = t) :
    ((s.free r).goto (.freed r (s.next r))).Inv t kept := by
  obtain ⟨pre, r, post, heq, hw, -⟩ := h.of_looked hd
  obtain rfl := Option.some.inj heq
  have hfresh : s.insert ≠ some r := hw.choose_spec.1.fresh r (by simp)
  exact h.of_phase rfl rfl (live_free hfresh) (fun _ => rfl)
    ⟨pre, post, cutting_goto.mpr (hw.cutting htag)⟩

/-- …or the link is behind it. -/
theorem other (h : s.Inv t kept) (hd : s.destroy = .looked (some r))
    (htag : (s.mem r).link.tag ≠ t) : (s.goto (.walking r r)).Inv t kept := by
  obtain ⟨pre, r, post, heq, hw, a, ha, hat⟩ := h.of_looked hd
  obtain rfl := Option.some.inj heq
  have hbehind : a ∈ post := (List.mem_cons.mp ha).resolve_left fun heq => htag (heq ▸ hat)
  exact h.goto ⟨pre, post, whole_goto.mpr hw, a, hbehind, hat⟩

/-- The loop through the internal links has a link ahead. -/
theorem ahead (h : s.Inv t kept) (hd : s.destroy = .walking r temp) (hnext : s.next temp = some d) :
    ∃ pre post, s.Whole t (pre ++ temp :: d :: post) kept ∧
      ∃ a ∈ d :: post, (s.mem a).link.tag = t := by
  obtain ⟨pre, post, hw, a, ha, hat⟩ := h.of_walking hd
  obtain ⟨c, post, rfl⟩ := List.exists_cons_of_ne_nil (List.ne_nil_of_mem ha)
  obtain rfl := Option.some.inj (hw.choose_spec.1.next_eq.symm.trans hnext)
  exact ⟨pre, post, hw, a, ha, hat⟩

/-- The link that is found is bypassed. -/
theorem found (h : s.Inv t kept) (hd : s.destroy = .walking r temp) (hnext : s.next temp = some d)
    (htag : (s.mem d).link.tag = t) :
    (((s.setNext temp (s.next d)).free d).goto .done).Inv t kept := by
  obtain ⟨pre, post, hw, -⟩ := h.ahead hd hnext
  have hfresh : s.insert ≠ some d := hw.choose_spec.1.fresh d (by simp)
  exact h.of_phase rfl rfl (live_free hfresh) (link_setNext s temp (s.next d))
    ⟨pre ++ temp :: post, listed_goto.mpr (hw.unlink htag)⟩

/-- **The loop finds the link before it gets to the end.** -/
theorem onward (h : s.Inv t kept) (hd : s.destroy = .walking r temp) (hnext : s.next temp = some d)
    (htag : (s.mem d).link.tag ≠ t) : s.next d ≠ none ∧ (s.goto (.walking r d)).Inv t kept := by
  obtain ⟨pre, post, hw, a, ha, hat⟩ := h.ahead hd hnext
  have hbehind : a ∈ post := (List.mem_cons.mp ha).resolve_left fun heq => htag (heq ▸ hat)
  have hsplit : pre ++ temp :: d :: post = (pre ++ [temp]) ++ d :: post := by simp
  rw [hsplit] at hw
  obtain ⟨c, post, rfl⟩ := List.exists_cons_of_ne_nil (List.ne_nil_of_mem hbehind)
  exact ⟨by simp [hw.choose_spec.1.next_eq],
    h.goto ⟨pre ++ [temp], c :: post, whole_goto.mpr hw, a, hbehind, hat⟩⟩

/-- The second lock section: the root is unlinked… -/
theorem unlinked (h : s.Inv t kept) (hd : s.destroy = .freed r next) (hroot : some r = s.root) :
    ({ s with root := next }.goto .done).Inv t kept := by
  obtain ⟨pre, post, hc⟩ := h.of_freed hd
  obtain ⟨ls, ls', hpre, hpost, rfl⟩ := hc.front
  refine h.of_phase rfl rfl (fun _ _ => rfl) (fun _ => rfl) ⟨post, listed_goto.mpr ?_⟩
  obtain rfl : pre = [] := by
    rcases pre with _ | ⟨c, pre⟩
    · rfl
    · have hc' : some c = some r := hpre.chain.1.symm.trans hroot.symm
      exact absurd (by simp [Option.some.inj hc']) hc.gone
  rw [← hpre.links]
  exact ⟨hpost.chain, hpost.links, hpost.live, hpost.fresh⟩

/-- …or the link before it is to be found. -/
theorem behind (h : s.Inv t kept) (hd : s.destroy = .freed r next) (hne : some r ≠ s.root)
    (hroot : s.root = some d) : (s.goto (.scanning r next d)).Inv t kept := by
  obtain ⟨pre, post, hc⟩ := h.of_freed hd
  obtain ⟨ls, ls', hpre, -⟩ := hc.front
  rcases pre with _ | ⟨c, pre⟩
  · exact absurd hpre.chain.symm hne
  · obtain rfl := Option.some.inj (hpre.chain.1.symm.trans hroot)
    exact h.goto ⟨[], pre, post, cutting_goto.mpr hc⟩

/-- The link before the freed root is joined to the one behind it… -/
theorem joined (h : s.Inv t kept) (hd : s.destroy = .scanning r next d)
    (hnext : s.next d = some r) :
    ((s.setNext d next).goto .done).Inv t kept := by
  obtain ⟨pre, pre', post, hc⟩ := h.of_scanning hd
  obtain ⟨ls, ls', hpre, -⟩ := hc.front
  rcases pre' with _ | ⟨c, pre'⟩
  · exact h.of_phase rfl rfl (fun _ _ => rfl) (link_setNext s d next)
      ⟨pre ++ d :: post, listed_goto.mpr hc.join⟩
  · obtain rfl := Option.some.inj (hpre.next_eq.symm.trans hnext)
    exact absurd (by simp) hc.gone

/-- …and is found, further on if it is not there yet. -/
theorem scan (h : s.Inv t kept) (hd : s.destroy = .scanning r next d) (hne : s.next d ≠ some r)
    {c : ℕ} (hnext : s.next d = some c) : (s.goto (.scanning r next c)).Inv t kept := by
  obtain ⟨pre, pre', post, hc⟩ := h.of_scanning hd
  obtain ⟨ls, ls', hpre, -⟩ := hc.front
  rcases pre' with _ | ⟨c', pre'⟩
  · exact absurd hpre.next_last hne
  · obtain rfl := Option.some.inj (hpre.next_eq.symm.trans hnext)
    refine h.goto ⟨pre ++ [d], pre', post, cutting_goto.mpr ?_⟩
    rwa [List.append_assoc]

/-- **What a step does to the list that is to be left**: nothing, or an insertion. -/
theorem step (h : s.Inv t kept) {a : HookedAct} (hs : s.step t a = some s') :
    (s'.Inv t kept ∧ s'.todo = s.todo ∧ s.notReused a = true) ∨
    ∃ l rest kept', s.todo = l :: rest ∧ s'.todo = rest ∧ s'.Inv t kept' ∧
      (s.notReused a = true → kept' = l :: kept) ∧
      (s.notReused a = false → kept' <:+ kept) := by
  cases stepIs hs with
  | link ha hfree => exact .inr (h.link ha hfree)
  | malloc _ htodo hlive => exact .inl ⟨h.malloc htodo hlive, rfl, rfl⟩
  | look hd => exact .inl ⟨h.look hd, rfl, rfl⟩
  | freed hd htag => exact .inl ⟨h.freed hd htag, rfl, rfl⟩
  | other hd htag => exact .inl ⟨h.other hd htag, rfl, rfl⟩
  | found hd hnext htag => exact .inl ⟨h.found hd hnext htag, rfl, rfl⟩
  | missed hd hnext htag hend => exact absurd hend (h.onward hd hnext htag).1
  | onward hd hnext htag _ => exact .inl ⟨(h.onward hd hnext htag).2, rfl, rfl⟩
  | unlinked hd hroot => exact .inl ⟨h.unlinked hd hroot, rfl, rfl⟩
  | behind hd hne hroot => exact .inl ⟨h.behind hd hne hroot, rfl, rfl⟩
  | joined hd hnext => exact .inl ⟨h.joined hd hnext, rfl, rfl⟩
  | scan hd hne hnext => exact .inl ⟨h.scan hd hne hnext, rfl, rfl⟩
  -- the link is never missed
  | again hd _ => exact absurd hd h.not_missed
  | sleep hd _ => exact absurd hd h.not_missed
  | wake hd => exact absurd hd h.not_asleep

/-- **The destruction neither faults nor sleeps**: until it is done it has a next step. -/
theorem progress (h : s.Inv t kept) (hdone : s.destroy ≠ .done) :
    ∃ a ∈ [HookedAct.look, .compare, .walk, .unlink, .scan], (s.step t a).isSome := by
  cases hd : s.destroy with
  | start => exact ⟨.look, by simp, by simp [Hooked.step, hd]⟩
  | looked rtemp =>
    obtain ⟨-, r, -, rfl, -⟩ := h.of_looked hd
    refine ⟨.compare, by simp, ?_⟩
    by_cases hr : (s.mem r).link.tag = t <;> simp [Hooked.step, hd, hr]
  | walking rtemp temp =>
    obtain ⟨pre, post, hw, a, ha, -⟩ := h.of_walking hd
    obtain ⟨d, post, rfl⟩ := List.exists_cons_of_ne_nil (List.ne_nil_of_mem ha)
    have hnext := hw.choose_spec.1.next_eq
    refine ⟨.walk, by simp, ?_⟩
    by_cases htd : (s.mem d).link.tag = t <;> by_cases hend : s.next d = none <;>
      simp [Hooked.step, hd, hnext, htd, hend]
  | missed rtemp => exact absurd hd h.not_missed
  | asleep => exact absurd hd h.not_asleep
  | freed r next =>
    obtain ⟨pre, post, hc⟩ := h.of_freed hd
    obtain ⟨d, hroot⟩ := hc.exists_root
    refine ⟨.unlink, by simp, ?_⟩
    by_cases hrd : r = d <;> simp [Hooked.step, hd, hroot, hrd]
  | scanning r next d =>
    obtain ⟨pre, pre', post, hc⟩ := h.of_scanning hd
    obtain ⟨c, hnext⟩ := hc.exists_next
    refine ⟨.scan, by simp, ?_⟩
    by_cases hcr : c = r <;> simp [Hooked.step, hd, hnext, hcr]
  | done => exact absurd hd hdone

end Inv

/-- A hook whose list is `init`, before the destruction of tag `t` and the insertion of `todo`. -/
structure Initial (t : ℕ) (init todo : List Link) (s : Hooked) : Prop where
  list : ∃ as, s.Listed s.root as none init
  destroy : s.destroy = .start
  insert : s.insert = none
  todo : s.todo = todo

/-- The list is acyclic, and has the links of `ls` and no other. -/
def Holds (s : Hooked) (ls : List Link) : Prop :=
  ∃ as, Chain s.next s.root as none ∧ as.Nodup ∧ (as.map fun a => (s.mem a).link).Perm ls

variable {init todo : List Link} {s₀ : Hooked} {acts : List HookedAct}

theorem Initial.inv (h : s₀.Initial t init todo) (hdistinct : (init.map Link.tag).Nodup)
    (hpresent : t ∈ init.map Link.tag) (hother : t ∉ todo.map Link.tag) :
    s₀.Inv t (init.filter (·.tag ≠ t)) := by
  obtain ⟨⟨as, hls⟩, hdestroy, hinsert, htodo⟩ := h
  refine ⟨?_, htodo ▸ hother, fun a ha => by simp [hinsert] at ha⟩
  simp only [Phase, hdestroy]
  refine ⟨as, ⟨init, hls, List.count_eq_one_of_mem hdistinct hpresent, rfl⟩, ?_⟩
  obtain ⟨l, hl, htag⟩ := List.mem_map.mp hpresent
  obtain ⟨a, ha, hal⟩ := List.mem_map.mp (hls.links ▸ hl)
  exact ⟨a, ha, (congrArg Link.tag hal).trans htag⟩

/-- At the end the list is `kept`. -/
theorem Inv.holds_iff (h : s.Inv t kept) (hdone : s.destroy = .done) :
    s.Holds ls ↔ kept.Perm ls := by
  obtain ⟨as, hls⟩ := h.of_done hdone
  constructor
  · rintro ⟨bs, hchain, -, hperm⟩
    rwa [← hls.chain.unique hchain, hls.links] at hperm
  · intro hperm
    exact ⟨as, hls.chain, hls.chain.nodup, hls.links ▸ hperm⟩

/-- While no freed block is linked, all that was inserted is kept. -/
theorem Inv.run_kept (h : s.Inv t kept)
    (hs : run (careful t) s acts = some s') :
    ∃ kept', s'.Inv t kept' ∧ (s'.todo ++ kept').Perm (s.todo ++ kept) := by
  refine Reaches.invariant (P := fun u => ∃ kept', u.Inv t kept' ∧
    (u.todo ++ kept').Perm (s.todo ++ kept)) ?_ ⟨acts, hs⟩ ⟨kept, h, .refl _⟩
  rintro u a v ⟨ku, hu, hperm⟩ ha
  obtain ⟨hok, ha⟩ := restrict_eq_some.mp ha
  rcases hu.step ha with ⟨hv, htodo, -⟩ | ⟨l, rest, kv, htodo, htodo', hv, hkeep, -⟩
  · exact ⟨ku, hv, htodo ▸ hperm⟩
  · obtain rfl := hkeep hok
    rw [htodo] at hperm
    rw [htodo']
    exact ⟨_, hv, List.perm_middle.trans hperm⟩

/-- Nothing that is lost comes back. -/
theorem Inv.run_length (h : s.Inv t kept) (hs : run (Hooked.step t) s acts = some s') :
    ∃ kept', s'.Inv t kept' ∧ s'.todo.length + kept'.length ≤ s.todo.length + kept.length := by
  refine Reaches.invariant (P := fun u => ∃ kept', u.Inv t kept' ∧
    u.todo.length + kept'.length ≤ s.todo.length + kept.length) ?_ ⟨acts, hs⟩ ⟨kept, h, le_refl _⟩
  rintro u a v ⟨ku, hu, hle⟩ ha
  rcases hu.step ha with ⟨hv, htodo, -⟩ | ⟨l, rest, kv, htodo, htodo', hv, hkeep, hlose⟩
  · exact ⟨ku, hv, htodo ▸ hle⟩
  · refine ⟨kv, hv, ?_⟩
    rw [htodo, List.length_cons] at hle
    rw [htodo']
    cases hok : u.notReused a with
    | true =>
      rw [hkeep hok, List.length_cons]
      omega
    | false =>
      have := (hlose hok).length_le
      omega

/-- **A freed block that is linked costs the link in it.** -/
theorem Inv.run_lost (h : s.Inv t kept) (hs : run (Hooked.step t) s acts = some s')
    (hreused : run (careful t) s acts = none) :
    ∃ kept', s'.Inv t kept' ∧ s'.todo.length + kept'.length < s.todo.length + kept.length := by
  induction acts generalizing s kept with
  | nil => simp at hreused
  | cons a acts ih =>
    rw [run_cons, Option.bind_eq_some_iff] at hs
    obtain ⟨u, ha, hs⟩ := hs
    rcases h.step ha with ⟨hu, htodo, hok⟩ | ⟨l, rest, ku, htodo, htodo', hu, hkeep, hlose⟩
    · have hcareful : careful t s a = some u := restrict_eq_some.mpr ⟨hok, ha⟩
      rw [run_cons, hcareful] at hreused
      exact htodo ▸ ih hu hs hreused
    · rw [htodo, List.length_cons]
      cases hok : s.notReused a with
      | true =>
        have hcareful : careful t s a = some u := restrict_eq_some.mpr ⟨hok, ha⟩
        rw [run_cons, hcareful] at hreused
        obtain ⟨kept', hs', hlt⟩ := ih hu hs hreused
        rw [htodo', hkeep hok, List.length_cons] at hlt
        exact ⟨kept', hs', by omega⟩
      | false =>
        obtain ⟨kept', hs', hle⟩ := hu.run_length hs
        have hshort := (hlose hok).length_le
        rw [htodo'] at hle
        exact ⟨kept', hs', by omega⟩

end Hooked

/-- **No link is lost between insertion and destruction** exactly in the runs in which no insertion
links the block of the freed root before the root is unlinked. -/
theorem link_kept_iff {t : ℕ} {init todo : List Link} {s₀ s : Hooked} {acts : List HookedAct}
    (hinit : s₀.Initial t init todo) (hdistinct : (init.map Link.tag).Nodup)
    (hpresent : t ∈ init.map Link.tag) (hother : t ∉ todo.map Link.tag)
    (hrun : run (Hooked.step t) s₀ acts = some s) (hfin : s.Finished) :
    s.Holds (todo ++ init.filter (·.tag ≠ t)) ↔ (run (Hooked.careful t) s₀ acts).isSome := by
  have hinv := hinit.inv hdistinct hpresent hother
  obtain ⟨hdone, htodo, -⟩ := hfin
  cases hok : run (Hooked.careful t) s₀ acts with
  | some u =>
    obtain rfl : u = s := Option.some.inj ((run_of_restrict hok).symm.trans hrun)
    obtain ⟨kept, hinv', hperm⟩ := hinv.run_kept hok
    rw [htodo, List.nil_append, hinit.todo] at hperm
    simpa using (hinv'.holds_iff hdone).mpr hperm
  | none =>
    obtain ⟨kept, hinv', hlt⟩ := hinv.run_lost hrun hok
    rw [htodo, List.length_nil, Nat.zero_add, hinit.todo, ← List.length_append] at hlt
    have hlost : ¬s.Holds (todo ++ init.filter (·.tag ≠ t)) := fun hholds =>
      absurd ((hinv'.holds_iff hdone).mp hholds).length_eq (by omega)
    simpa using hlost

/-- The hook whose list is the link of tag 0, in block 0, and a link of tag 1 to be inserted. -/
def Hooked.single : Hooked where
  mem _ := ⟨⟨0, 0⟩, none⟩
  live a := a = 0
  root := some 0
  todo := [⟨1, 1⟩]
  insert := none
  destroy := .start

theorem Hooked.single_initial : Hooked.single.Initial 0 [⟨0, 0⟩] [⟨1, 1⟩] where
  list := ⟨[0], ⟨rfl, rfl⟩, rfl, by decide, nofun⟩
  destroy := rfl
  insert := rfl
  todo := rfl

/-- The insertion gets another block, and is linked before the root is unlinked. -/
theorem link_kept_iff_fresh : ∃ s,
    run (Hooked.step 0) .single [.look, .compare, .malloc 1 none, .link, .unlink, .scan] = some s ∧
      s.Holds [⟨1, 1⟩] := by
  have hrun : run (Hooked.step 0) .single
      [.look, .compare, .malloc 1 none, .link, .unlink, .scan] = some _ := rfl
  refine ⟨_, hrun, ?_⟩
  refine (link_kept_iff Hooked.single_initial (by decide) (by decide) (by decide) hrun
    ⟨rfl, rfl, rfl⟩).mpr ?_
  exact Option.isSome_iff_exists.mpr ⟨_, rfl⟩

/-- The insertion gets the block of the freed root, and is linked before the root is unlinked:
the address of the root has not changed, and the new link goes in its place. -/
theorem link_lost : Hooked.single.Initial 0 [⟨0, 0⟩] [⟨1, 1⟩] ∧ ∃ s,
    run (Hooked.step 0) .single [.look, .compare, .malloc 0 none, .link, .unlink] = some s ∧
      s.Finished ∧ ¬s.Holds [⟨1, 1⟩] := by
  refine ⟨Hooked.single_initial, _, rfl, ⟨rfl, rfl, rfl⟩, ?_⟩
  rintro ⟨as, hchain, -, hperm⟩
  obtain rfl : [] = as := Chain.unique (r := none) rfl hchain
  exact absurd hperm.length_eq (by decide)

end Libdsys
