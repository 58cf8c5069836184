import Libdsys.Branch.Iface
import Libdsys.Ltab.Destroy

/-!
# Ltab/DestroyCalls — which destroy function a removed link's channel is given to

While nothing is inserted, `__bc_link_destroy` comes to its end and leaves the list without the
link.  The channel of a root is given to the destroy function of its own role; that of an internal
link to the one of the role of the link *before* it, at which `temp` still points.

* `Hooked.Inv.finishes` — a destruction that is left alone ends.
* `destroy_calls_iff` — the function is the link's own exactly where the neighbours' agree.
-/

open Machinery

namespace Libdsys

/-! ## A destruction that is left alone -/

/-- The steps `__bc_link_destroy` takes by itself: a wait is ended by another thread. -/
def HookedAct.destroys : HookedAct → Bool
  | .malloc _ _ => false
  | .link => false
  | .wake => false
  | _ => true

namespace Hooked

variable {s s' : Hooked} {t : ℕ} {kept ls : List Link}

/-- **The destruction, left alone, comes to its end.** -/
def Finishes (t : ℕ) (s : Hooked) : Prop :=
  ∃ s', Reaches (restrict (fun _ a => a.destroys = true) (step t)) s s' ∧ s'.destroy = .done

theorem Finishes.head (a : HookedAct) (s' : Hooked) (ha : a.destroys = true)
    (hs : s.step t a = some s') (h : s'.Finishes t) : s.Finishes t := by
  obtain ⟨u, hu, hdone⟩ := h
  exact ⟨u, hu.head (restrict_eq_some.mpr ⟨ha, hs⟩), hdone⟩

theorem Finishes.of_done (h : s.destroy = .done) : s.Finishes t := ⟨s, .refl s, h⟩

namespace Inv

/-- …from the loop of the second lock section on: by induction on the links before the freed
root. -/
theorem finishes_scanning {r d : ℕ} {temp : Option ℕ} (pre : List ℕ) {pre' post : List ℕ}
    (hd : s.destroy = .scanning r temp d) (hc : s.Cutting r temp (pre ++ d :: pre') post kept) :
    s.Finishes t := by
  induction pre' generalizing s d pre with
  | nil =>
    obtain ⟨ls, ls', hpre, -⟩ := hc.front
    have hnext := hpre.next_last
    refine .head .scan ((s.setNext d temp).goto .done) rfl ?_ (.of_done rfl)
    simp only [Hooked.step, hd, hnext, if_true]
  | cons c pre' ih =>
    obtain ⟨ls, ls', hpre, -⟩ := hc.front
    have hnext := hpre.next_eq
    have hne : c ≠ r := fun heq => hc.gone (by simp [heq])
    refine .head .scan (s.goto (.scanning r temp c)) rfl ?_ ?_
    · simp [Hooked.step, hd, hnext, hne]
    · refine ih (pre ++ [d]) rfl (cutting_goto.mpr ?_)
      rwa [List.append_assoc]

/-- …from the second lock section on. -/
theorem finishes_freed {r : ℕ} {temp : Option ℕ} {pre post : List ℕ}
    (hd : s.destroy = .freed r temp) (hc : s.Cutting r temp pre post kept) : s.Finishes t := by
  obtain ⟨ls, ls', hpre, -⟩ := hc.front
  rcases pre with _ | ⟨d, pre⟩
  · have hroot : s.root = some r := hpre.chain
    refine .head .unlink ({ s with root := temp }.goto .done) rfl ?_ (.of_done rfl)
    simp only [Hooked.step, hd, hroot, if_true]
  · have hroot : s.root = some d := hpre.chain.1
    have hne : r ≠ d := fun heq => hc.gone (by simp [heq])
    refine .head .unlink (s.goto (.scanning r temp d)) rfl ?_ ?_
    · simp [Hooked.step, hd, hroot, hne]
    · exact finishes_scanning [] rfl (cutting_goto.mpr hc)

/-- …from the loop through the internal links on: by induction on those still ahead. -/
theorem finishes_walking {rtemp temp : ℕ} (pre : List ℕ) {post : List ℕ}
    (hd : s.destroy = .walking rtemp temp) (hw : s.Whole t (pre ++ temp :: post) kept)
    (ha : ∃ a ∈ post, (s.mem a).link.tag = t) : s.Finishes t := by
  induction post generalizing s temp pre with
  | nil => simp at ha
  | cons d post ih =>
    have hnext := hw.choose_spec.1.next_eq
    have hsplit : pre ++ temp :: d :: post = (pre ++ [temp]) ++ d :: post := by simp
    rcases eq_or_ne (s.mem d).link.tag t with htag | htag
    · refine .head .walk (((s.setNext temp (s.next d)).free d).goto .done) rfl ?_ (.of_done rfl)
      simp only [Hooked.step, hd, hnext, htag, if_true]
    · obtain ⟨a, ha, hat⟩ := ha
      have hbehind : a ∈ post := (List.mem_cons.mp ha).resolve_left fun heq => htag (heq ▸ hat)
      obtain ⟨c, post, rfl⟩ := List.exists_cons_of_ne_nil (List.ne_nil_of_mem hbehind)
      rw [hsplit] at hw
      have hend := hw.choose_spec.1.next_eq
      refine .head .walk (s.goto (.walking rtemp d)) rfl ?_ ?_
      · simp [Hooked.step, hd, hnext, htag, hend]
      · exact ih (pre ++ [temp]) rfl (whole_goto.mpr hw) ⟨a, hbehind, hat⟩

/-- …from the root it has read on. -/
theorem finishes_looked {r : ℕ} (pre : List ℕ) {post : List ℕ} (hd : s.destroy = .looked (some r))
    (hw : s.Whole t (pre ++ r :: post) kept) (ha : ∃ a ∈ r :: post, (s.mem a).link.tag = t) :
    s.Finishes t := by
  rcases eq_or_ne (s.mem r).link.tag t with htag | htag
  · refine .head .compare ((s.free r).goto (.freed r (s.next r))) rfl ?_ ?_
    · simp [Hooked.step, hd, htag]
    · exact finishes_freed rfl (cutting_goto.mpr (hw.cutting htag))
  · obtain ⟨a, ha, hat⟩ := ha
    have hbehind : a ∈ post := (List.mem_cons.mp ha).resolve_left fun heq => htag (heq ▸ hat)
    refine .head .compare (s.goto (.walking r r)) rfl ?_ ?_
    · simp [Hooked.step, hd, htag]
    · exact finishes_walking pre rfl (whole_goto.mpr hw) ⟨a, hbehind, hat⟩

/-- **A destruction that will find its link ends.** -/
theorem finishes (h : s.Inv t kept) : s.Finishes t := by
  cases hd : s.destroy with
  | start =>
    obtain ⟨as, hw, a, ha, htag⟩ := h.of_start hd
    obtain ⟨r, as, rfl⟩ := List.exists_cons_of_ne_nil (List.ne_nil_of_mem ha)
    have hroot : s.root = some r := hw.choose_spec.1.chain.1
    refine .head .look (s.goto (.looked (some r))) rfl ?_ ?_
    · simp [Hooked.step, hd, hroot]
    · exact finishes_looked [] rfl (whole_goto.mpr hw) ⟨a, ha, htag⟩
  | looked rtemp =>
    obtain ⟨pre, r, post, rfl, hw, ha⟩ := h.of_looked hd
    exact finishes_looked pre hd hw ha
  | walking rtemp temp =>
    obtain ⟨pre, post, hw, ha⟩ := h.of_walking hd
    exact finishes_walking pre hd hw ha
  | missed rtemp => exact absurd hd h.not_missed
  | asleep => exact absurd hd h.not_asleep
  | freed r next =>
    obtain ⟨pre, post, hc⟩ := h.of_freed hd
    exact finishes_freed hd hc
  | scanning r next d =>
    obtain ⟨pre, pre', post, hc⟩ := h.of_scanning hd
    exact finishes_scanning pre hd hc
  | done => exact .of_done hd

end Inv

/-! ## What it calls -/

/-- What a step calls: the entry of `bc_iface` for a role, and the channel that is given to it.  The
channels have the roles `roles`. -/
def calls (roles : ℕ → Role) (t : ℕ) (s : Hooked) : HookedAct → List (Option DestroyFn × ℕ)
  | .compare =>
    match s.destroy with
    | .looked (some rtemp) =>
      let link := (s.mem rtemp).link
      if link.tag = t then [((roles link.channel).destroyFn, link.channel)] else []
    | _ => []
  | .walk =>
    match s.destroy with
    | .walking _ temp =>
      match s.next temp with
      | none => []
      | some dummy =>
        let link := (s.mem dummy).link
        if link.tag = t then [((roles (s.mem temp).link.channel).destroyFn, link.channel)] else []
    | _ => []
  | _ => []

/-- The destruction, with its calls. -/
def recorded (roles : ℕ → Role) (t : ℕ) (x : Hooked × List (Option DestroyFn × ℕ))
    (a : HookedAct) : Option (Hooked × List (Option DestroyFn × ℕ)) :=
  (x.1.step t a).map fun s => (s, x.2 ++ x.1.calls roles t a)

/-- `link` is the one to go, and `before` the one whose channel's role is looked at: itself at the
root, and the link before it elsewhere. -/
def Preceded (t : ℕ) (init : List Link) (before link : Link) : Prop :=
  link.tag = t ∧ (init.head? = some link ∧ before = link ∨ [before, link] <:+: init)

/-- **What has been called so far**: nothing, while the list is as it was; then the one call. -/
def Calling (roles : ℕ → Role) (t : ℕ) (init : List Link) (s₀ : Hooked)
    (x : Hooked × List (Option DestroyFn × ℕ)) : Prop :=
  match x.1.destroy with
  | .start => x.1.mem = s₀.mem ∧ x.1.root = s₀.root ∧ x.2 = []
  | .looked rtemp => x.1.mem = s₀.mem ∧ x.1.root = s₀.root ∧ x.2 = [] ∧ rtemp = s₀.root
  | .walking _ _ => x.1.mem = s₀.mem ∧ x.1.root = s₀.root ∧ x.2 = []
  | _ => ∃ before link, Preceded t init before link ∧
      x.2 = [((roles before.channel).destroyFn, link.channel)]

variable {roles : ℕ → Role} {init : List Link} {s₀ : Hooked}
  {x y : Hooked × List (Option DestroyFn × ℕ)}

/-- The links in a list that is as it was. -/
theorem Initial.map_link (hinit : s₀.Initial t init []) (hmem : s.mem = s₀.mem)
    (hroot : s.root = s₀.root) {as : List ℕ} (h : s.Listed s.root as none ls) :
    as.map (fun a => (s.mem a).link) = init := by
  obtain ⟨bs, hbs⟩ := hinit.list
  have hnext : s.next = s₀.next := by
    funext a
    rw [next, next, hmem]
  have hchain := h.chain
  rw [hroot, hnext] at hchain
  rw [hchain.unique hbs.chain, hmem, hbs.links]

/-- The link at the root of a list that is as it was. -/
theorem Initial.head?_eq (hinit : s₀.Initial t init []) {r : ℕ} (hroot : s₀.root = some r) :
    init.head? = some (s₀.mem r).link := by
  obtain ⟨as, has⟩ := hinit.list
  have hchain := has.chain
  rw [hroot] at hchain
  rcases as with _ | ⟨b, as⟩
  · cases hchain
  · obtain rfl := Option.some.inj hchain.1
    rw [← has.links]
    rfl

/-- The two links that a found link is told by. -/
theorem Initial.preceded (hinit : s₀.Initial t init []) (hmem : s.mem = s₀.mem)
    (hroot : s.root = s₀.root) {pre post : List ℕ} {temp d : ℕ}
    (h : s.Listed s.root (pre ++ temp :: d :: post) none ls) (htag : (s.mem d).link.tag = t) :
    Preceded t init (s.mem temp).link (s.mem d).link := by
  refine ⟨htag, Or.inr ?_⟩
  rw [← hinit.map_link hmem hroot h]
  exact ⟨pre.map fun a => (s.mem a).link, post.map fun a => (s.mem a).link, by simp⟩

/-- **A step calls what it has to**, where nothing is inserted. -/
theorem Calling.step (h : Calling roles t init s₀ x) (hinit : s₀.Initial t init [])
    (hinv : x.1.Inv t kept) (htodo : x.1.todo = []) (hinsert : x.1.insert = none) {a : HookedAct}
    (hs : x.1.step t a = some s') :
    Calling roles t init s₀ (s', x.2 ++ x.1.calls roles t a) ∧ s'.todo = [] ∧ s'.insert = none := by
  cases stepIs hs with
  | malloc _ hnil _ =>
    rw [htodo] at hnil
    cases hnil
  | link hins _ =>
    rw [hinsert] at hins
    cases hins
  | look hd =>
    simp only [Calling, hd] at h
    obtain ⟨hmem, hroot, hnone⟩ := h
    exact ⟨⟨hmem, hroot, by rw [hnone]; rfl, hroot⟩, htodo, hinsert⟩
  | freed hd htag =>
    simp only [Calling, hd] at h
    obtain ⟨hmem, -, hnone, hr⟩ := h
    refine ⟨⟨_, _, ⟨htag, Or.inl ⟨hmem ▸ hinit.head?_eq hr.symm, rfl⟩⟩, ?_⟩, htodo, hinsert⟩
    simp only [calls, hd, htag, if_true, hnone, List.nil_append]
  | other hd htag =>
    simp only [Calling, hd] at h
    obtain ⟨hmem, hroot, hnone, -⟩ := h
    refine ⟨⟨hmem, hroot, ?_⟩, htodo, hinsert⟩
    simp only [calls, hd, htag, if_false, hnone, List.nil_append]
  | found hd hnext htag =>
    simp only [Calling, hd] at h
    obtain ⟨hmem, hroot, hnone⟩ := h
    obtain ⟨pre, post, ⟨ls, hls, -⟩, -⟩ := hinv.ahead hd hnext
    refine ⟨⟨_, _, hinit.preceded hmem hroot hls htag, ?_⟩, htodo, hinsert⟩
    simp only [calls, hd, hnext, htag, if_true, hnone, List.nil_append]
  | missed hd hnext htag hend => exact absurd hend (hinv.onward hd hnext htag).1
  | onward hd hnext htag _ =>
    simp only [Calling, hd] at h
    obtain ⟨hmem, hroot, hnone⟩ := h
    refine ⟨⟨hmem, hroot, ?_⟩, htodo, hinsert⟩
    simp only [calls, hd, hnext, htag, if_false, hnone, List.nil_append]
  | again hd _ => exact absurd hd hinv.not_missed
  | sleep hd _ => exact absurd hd hinv.not_missed
  | wake hd => exact absurd hd hinv.not_asleep
  | unlinked hd _ =>
    simp only [Calling, hd] at h
    exact ⟨by simpa [Calling, calls, goto] using h, htodo, hinsert⟩
  | behind hd _ _ =>
    simp only [Calling, hd] at h
    exact ⟨by simpa [Calling, calls, goto] using h, htodo, hinsert⟩
  | joined hd _ =>
    simp only [Calling, hd] at h
    exact ⟨by simpa [Calling, calls, goto] using h, htodo, hinsert⟩
  | scan hd _ _ =>
    simp only [Calling, hd] at h
    exact ⟨by simpa [Calling, calls, goto] using h, htodo, hinsert⟩

/-- The invariant of a destruction with its calls, while nothing is inserted. -/
structure RecordedInv (roles : ℕ → Role) (t : ℕ) (init : List Link) (s₀ : Hooked)
    (x : Hooked × List (Option DestroyFn × ℕ)) : Prop where
  inv : x.1.Inv t (init.filter (·.tag ≠ t))
  calling : Calling roles t init s₀ x
  todo : x.1.todo = []
  insert : x.1.insert = none

theorem RecordedInv.step (h : RecordedInv roles t init s₀ x) (hinit : s₀.Initial t init [])
    {a : HookedAct} (hs : recorded roles t x a = some y) : RecordedInv roles t init s₀ y := by
  obtain ⟨s', hs', rfl⟩ := Option.map_eq_some_iff.mp hs
  obtain ⟨hcalling, htodo, hinsert⟩ := h.calling.step hinit h.inv h.todo h.insert hs'
  refine ⟨?_, hcalling, htodo, hinsert⟩
  rcases h.inv.step hs' with ⟨hinv, -⟩ | ⟨l, rest, -, hcons, -⟩
  · exact hinv
  · rw [h.todo] at hcons
    cases hcons

theorem RecordedInv.of_reaches (hinit : s₀.Initial t init [])
    (hdistinct : (init.map Link.tag).Nodup) (hpresent : t ∈ init.map Link.tag)
    (hx : Reaches (recorded roles t) (s₀, []) x) : RecordedInv roles t init s₀ x := by
  refine hx.invariant (fun _ _ _ h hs => h.step hinit hs) ?_
  refine ⟨hinit.inv hdistinct hpresent (by simp), ?_, hinit.todo, hinit.insert⟩
  simp only [Calling, hinit.destroy, and_self]

/-- The calls are on record in every run. -/
theorem reaches_recorded (roles : ℕ → Role) {ok : Hooked → HookedAct → Prop}
    [∀ s a, Decidable (ok s a)] (h : Reaches (restrict ok (step t)) s s') :
    ∃ log, Reaches (recorded roles t) (s, []) (s', log) := by
  have hstep : ∀ (x : Hooked × List (Option DestroyFn × ℕ)) a u,
      restrict ok (step t) x.1 a = some u → ∃ y, recorded roles t x a = some y ∧ y.1 = u := by
    intro x a u ha
    refine ⟨(u, x.2 ++ x.1.calls roles t a), ?_, rfl⟩
    rw [recorded, (restrict_eq_some.mp ha).2, Option.map_some]
  obtain ⟨x, hx, rfl⟩ := Reaches.follows Prod.fst (x := (s, [])) hstep h
  exact ⟨x.2, hx⟩

/-- In a list of distinct tags, a link has one place. -/
theorem index_unique (hdistinct : (init.map Link.tag).Nodup) {i j : ℕ} {l l' : Link}
    (hl : init[i]? = some l) (hl' : init[j]? = some l') (htag : l.tag = l'.tag) : i = j := by
  obtain ⟨hi, rfl⟩ := List.getElem?_eq_some_iff.mp hl
  refine (List.getElem?_inj (by rwa [List.length_map]) hdistinct).mp ?_
  rw [List.getElem?_map, List.getElem?_map, hl, hl', Option.map_some, Option.map_some, htag]

/-- The links before and behind the gap of a split. -/
theorem exists_index {before link : Link} (h : [before, link] <:+: init) :
    ∃ i, init[i]? = some before ∧ init[i + 1]? = some link := by
  obtain ⟨pre, post, rfl⟩ := h
  exact ⟨pre.length, by simp, by simp⟩

/-- **The link that goes is the one of the tag, and what is before it is told by the list.** -/
theorem Preceded.eq_of_infix {before link before' link' : Link} (h : Preceded t init before link)
    (hdistinct : (init.map Link.tag).Nodup) (hin : [before', link'] <:+: init)
    (htag : link'.tag = t) : before' = before ∧ link' = link := by
  obtain ⟨i, hbefore, hlink⟩ := exists_index hin
  obtain ⟨hl, ⟨hhead, -⟩ | hinfix⟩ := h
  · rw [List.head?_eq_getElem?] at hhead
    exact absurd (index_unique hdistinct hlink hhead (htag.trans hl.symm)) (Nat.succ_ne_zero i)
  · obtain ⟨j, hbefore', hlink'⟩ := exists_index hinfix
    obtain rfl := Nat.succ.inj (index_unique hdistinct hlink hlink' (htag.trans hl.symm))
    exact ⟨Option.some.inj (hbefore.symm.trans hbefore'), Option.some.inj (hlink.symm.trans hlink')⟩

theorem Preceded.mem {before link : Link} (h : Preceded t init before link) : link ∈ init := by
  obtain ⟨-, ⟨hhead, -⟩ | hin⟩ := h
  · exact List.mem_of_mem_head? hhead
  · exact hin.subset (by simp)

theorem Preceded.eq_of_mem {before link link' : Link} (h : Preceded t init before link)
    (hdistinct : (init.map Link.tag).Nodup) (hmem : link' ∈ init) (htag : link'.tag = t) :
    link' = link := List.inj_on_of_nodup_map hdistinct hmem h.mem (htag.trans h.1.symm)

/-- **The function is the link's own** where it has nothing before it, and where the two roles
agree. -/
theorem Preceded.destroyFn_iff {before link : Link} (h : Preceded t init before link)
    (hdistinct : (init.map Link.tag).Nodup) :
    (roles before.channel).destroyFn = (roles link.channel).destroyFn ↔
      ∀ before' link', [before', link'] <:+: init → link'.tag = t →
        (roles before'.channel).destroyFn = (roles link'.channel).destroyFn := by
  constructor
  · intro heq before' link' hin htag
    obtain ⟨rfl, rfl⟩ := h.eq_of_infix hdistinct hin htag
    exact heq
  · intro hall
    obtain ⟨htag, ⟨-, rfl⟩ | hin⟩ := h
    · rfl
    · exact hall _ _ hin htag

end Hooked

/-- **Destroying a present link** while nothing is inserted: it ends, the list is what it was
without the link, and the destroy function of the link's own channel's role is called on that
channel — exactly if the link is the root, or the role of the channel of the link before it has the
same function. -/
theorem destroy_calls_iff (roles : ℕ → Role) {t : ℕ} {init : List Link} {s₀ : Hooked}
    (hinit : s₀.Initial t init []) (hdistinct : (init.map Link.tag).Nodup)
    (hpresent : t ∈ init.map Link.tag)
    (hmade : ∀ l ∈ init, ∃ role qtype, Role.c role = some (roles l.channel, qtype)) :
    (∃ x, Reaches (Hooked.recorded roles t) (s₀, []) x ∧ x.1.destroy = .done) ∧
    ∀ s calls, Reaches (Hooked.recorded roles t) (s₀, []) (s, calls) → s.destroy = .done →
      (((∃ as, s.Listed s.root as none (init.filter (·.tag ≠ t))) ∧
        ∃ link ∈ init, link.tag = t ∧ ∃ fn, (roles link.channel).destroyFn = some fn ∧
          calls = [(some fn, link.channel)]) ↔
        ∀ before link, [before, link] <:+: init → link.tag = t →
          (roles before.channel).destroyFn = (roles link.channel).destroyFn) := by
  have hinv {x} := @Hooked.RecordedInv.of_reaches t roles init s₀ x hinit hdistinct hpresent
  constructor
  · obtain ⟨s, hs, hdone⟩ := (hinit.inv hdistinct hpresent (by simp)).finishes
    obtain ⟨log, hlog⟩ := Hooked.reaches_recorded roles hs
    exact ⟨_, hlog, hdone⟩
  · intro s calls hs hdone
    have hlist := (hinv hs).inv.of_done hdone
    have hcalling := (hinv hs).calling
    simp only [Hooked.Calling, hdone] at hcalling
    obtain ⟨before, link, hlink, rfl⟩ := hcalling
    rw [← hlink.destroyFn_iff hdistinct]
    constructor
    · rintro ⟨-, link', hmem, htag, fn, hfn, heq⟩
      obtain ⟨hbefore, -⟩ : (roles before.channel).destroyFn = some fn ∧ _ := by simpa using heq
      obtain rfl := hlink.eq_of_mem hdistinct hmem htag
      rw [hbefore, hfn]
    · intro heq
      obtain ⟨role, qtype, hc⟩ := hmade link hlink.mem
      obtain ⟨fn, hfn⟩ := Role.exists_destroyFn hc
      exact ⟨hlist, link, hlink.mem, hlink.1, fn, hfn, by rw [heq, hfn]⟩

/-- The hook whose list is the link of tag 0 to channel 0, and behind it that of tag 1 to channel 1;
nothing is inserted. -/
def Hooked.double : Hooked where
  mem a := if a = 0 then ⟨⟨0, 0⟩, some 1⟩ else ⟨⟨1, 1⟩, none⟩
  live a := a < 2
  root := some 0
  todo := []
  insert := none
  destroy := .start

theorem Hooked.double_initial (t : ℕ) : Hooked.double.Initial t [⟨0, 0⟩, ⟨1, 1⟩] [] where
  list := ⟨[0, 1], ⟨rfl, rfl, rfl⟩, rfl, by decide, by decide⟩
  destroy := rfl
  insert := rfl
  todo := rfl

/-- Two replicated channels. -/
theorem destroy_calls_iff_replicate : ∃ s calls,
    Reaches (Hooked.recorded (fun _ => .replicate) 1) (.double, []) (s, calls) ∧
      s.destroy = .done ∧ calls = [(some .replicate, 1)] := by
  obtain ⟨⟨⟨s, calls⟩, hs, hdone⟩, hiff⟩ := destroy_calls_iff (fun _ => .replicate)
    (Hooked.double_initial 1) (by decide) (by decide) (fun _ _ => ⟨.replicate, _, rfl⟩)
  obtain ⟨-, link, hmem, htag, fn, hfn, rfl⟩ := (hiff s calls hs hdone).mpr fun _ _ _ _ => rfl
  obtain rfl : link = ⟨1, 1⟩ := by
    rcases List.mem_pair.mp hmem with rfl | rfl
    · cases htag
    · rfl
  obtain rfl := Option.some.inj hfn
  exact ⟨s, _, hs, hdone, rfl⟩

/-- **A replicated channel behind a pipe**: it is given to the destroy function of pipes. -/
theorem neighbour_called : ∃ s,
    Reaches (Hooked.recorded (fun c => if c = 0 then .pipe else .replicate) 1) (.double, [])
      (s, [(some .pipe, 1)]) ∧ s.destroy = .done ∧ Role.replicate.destroyFn = some .replicate :=
  ⟨_, ⟨[.look, .compare, .walk], rfl⟩, rfl, rfl⟩

end Libdsys
