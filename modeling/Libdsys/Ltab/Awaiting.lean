import Libdsys.Ltab.DestroyCalls

/-!
# Ltab/Awaiting — destroying a link that is not there yet

A KILL may arrive before its link is inserted.  `__bc_link_destroy` then goes through the links it
has read from the root, sleeps if nothing was inserted meanwhile, and starts again when it is woken.
Before it has found the link it looks one link ahead: it reads the tag of the root, and of the link
behind it, without asking whether they are there.

* `Searching` — what it has gone through is a piece of the list, with two links or more.
* `awaited_iff` — it follows no `NULL` and removes the link when it comes, exactly where the list
  has two links to start with.
-/

open Machinery

namespace Libdsys

namespace Hooked

/-! ## The wait -/

/-- Whether the thread was signalled since it fell asleep: an insertion signals, and a signal that
nobody waits for is lost. -/
def signalled (x : Hooked × Bool) : HookedAct → Bool
  | .link => x.1.destroy = .asleep || x.2
  | .recheck => false
  | .wake => false
  | _ => x.2

/-- The destruction of tag `t` and the insertions, with the signals.  A wait may end without one. -/
def awaiting (t : ℕ) (x : Hooked × Bool) (a : HookedAct) : Option (Hooked × Bool) :=
  (x.1.step t a).map fun s => (s, signalled x a)

/-- What the thread does next is to follow a `NULL`. -/
def FollowsNull (s : Hooked) : Prop :=
  match s.destroy with
  | .looked rtemp => rtemp = none
  | .walking _ temp => s.next temp = none
  | .freed _ _ => s.root = none
  | .scanning _ _ dummy => s.next dummy = none
  | _ => False

/-- The steps the destruction takes if it is left alone: it ends a wait when it is signalled. -/
def alone (x : Hooked × Bool) : HookedAct → Bool
  | .wake => x.2
  | a => a.destroys

/-- **The destruction, left alone, comes to its end.** -/
def Ends (t : ℕ) (x : Hooked × Bool) : Prop :=
  ∃ y, Reaches (restrict (fun x a => alone x a = true) (awaiting t)) x y ∧ y.1.destroy = .done

/-- **What is promised of a destruction** of tag `t` in a list that was `init`, where the links of
`todo` are inserted: it follows no `NULL`; nothing goes before the link is inserted; then it comes
to its end; and there the link is gone. -/
structure Awaits (t : ℕ) (init todo : List Link) (x : Hooked × Bool) : Prop where
  null : ¬x.1.FollowsNull
  waits : t ∈ x.1.todo.map Link.tag ∨ t ∉ todo.map Link.tag → ∃ as ls,
    x.1.Listed x.1.root as none ls ∧ (x.1.todo ++ ls).Perm (todo ++ init)
  ends : t ∈ todo.map Link.tag → t ∉ x.1.todo.map Link.tag → Ends t x
  removed : x.1.destroy = .done → t ∈ todo.map Link.tag ∧ t ∉ x.1.todo.map Link.tag ∧
    ∃ as ls, x.1.Listed x.1.root as none ls ∧ t ∉ ls.map Link.tag

variable {s s' : Hooked} {t : ℕ} {x y : Hooked × Bool} {as : List ℕ} {ls kept all : List Link}

/-! ## Before the link is found -/

/-- **Where the destruction is before it finds the link**: it has read the `n`-th link as the root,
and the link it looks for is not among those from there on; and it sleeps only while the link is not
there, or until it takes notice of a signal. -/
def Place (t : ℕ) (x : Hooked × Bool) (as : List ℕ) (ls : List Link) : Prop :=
  match x.1.destroy with
  | .start => t ∉ ls.map Link.tag
  | .looked rtemp => ∃ n, as[n]? = rtemp ∧ n + 2 ≤ as.length ∧ t ∉ (ls.drop n).map Link.tag
  | .walking rtemp temp => ∃ n m, as[n]? = some rtemp ∧ n ≤ m ∧ as[m]? = some temp ∧
      m + 2 ≤ as.length ∧ t ∉ (ls.drop n).map Link.tag
  | .missed rtemp => ∃ n, as[n]? = some rtemp ∧ t ∉ (ls.drop n).map Link.tag
  | .asleep => x.2 = true ∨ t ∉ ls.map Link.tag
  | _ => False

/-- **The invariant of the search.** -/
structure Searching (t : ℕ) (x : Hooked × Bool) (as : List ℕ) (ls : List Link) : Prop where
  list : x.1.Listed x.1.root as none ls
  many : 2 ≤ as.length
  distinct : ((x.1.todo ++ ls).map Link.tag).Nodup
  insert : ∀ a, x.1.insert = some a → x.1.live a = true ∧ x.1.todo.head? = some (x.1.mem a).link
  place : Place t x as ls

/-- The pointers of a list are its blocks in their order. -/
theorem Listed.getElem?_zero {r : Option ℕ} (h : s.Listed r as none ls) : as[0]? = r := by
  rcases as with _ | ⟨a, as⟩
  · exact h.chain.symm
  · exact h.chain.1.symm

theorem Listed.getElem?_next {r : Option ℕ} (h : s.Listed r as none ls) {m a : ℕ}
    (ha : as[m]? = some a) : s.next a = as[m + 1]? := by
  obtain ⟨hm, rfl⟩ := List.getElem?_eq_some_iff.mp ha
  have hsplit : as.take m ++ as[m] :: as.drop (m + 1) = as := by simp
  obtain ⟨e, ls₁, ls₂, -, hbehind, -⟩ := Listed.append_iff.mp (hsplit.symm ▸ h)
  obtain ⟨-, -, -, ls₃, hrest, -⟩ := Listed.cons_iff.mp hbehind
  rw [← hrest.getElem?_zero, List.getElem?_drop, Nat.add_zero]

theorem Listed.link_eq {r e : Option ℕ} (h : s.Listed r as e ls) {m a : ℕ} (ha : as[m]? = some a) :
    ls[m]? = some (s.mem a).link := by
  rw [← h.links, List.getElem?_map, ha, Option.map_some]

/-- A link that is not among those from the `n`-th on. -/
theorem tag_ne_of_drop {n m : ℕ} {l : Link} (h : t ∉ (ls.drop n).map Link.tag) (hnm : n ≤ m)
    (hl : ls[m]? = some l) : l.tag ≠ t := by
  rintro rfl
  refine h (List.mem_map_of_mem (List.mem_of_getElem? (i := m - n) ?_))
  rw [List.getElem?_drop, Nat.add_sub_cancel' hnm, hl]

/-- The tags of a stretch. -/
theorem Listed.mem_tags {r e : Option ℕ} (h : s.Listed r as e ls) :
    t ∈ ls.map Link.tag ↔ ∃ a ∈ as, (s.mem a).link.tag = t := by
  rw [← h.links, List.map_map, List.mem_map]
  rfl

/-- **A pass that starts when the link is there finds it.** -/
theorem inv_of_present (hls : s.Listed s.root as none ls)
    (hdistinct : ((s.todo ++ ls).map Link.tag).Nodup)
    (hinsert : ∀ a, s.insert = some a → s.live a = true ∧ s.todo.head? = some (s.mem a).link)
    (hpresent : t ∈ ls.map Link.tag) (hd : s.destroy = .start ∨ s.destroy = .looked s.root) :
    s.Inv t (ls.filter (·.tag ≠ t)) := by
  rw [List.map_append] at hdistinct
  obtain ⟨-, hnodup, hdisj⟩ := List.nodup_append.mp hdistinct
  have hw : s.Whole t as (ls.filter (·.tag ≠ t)) :=
    ⟨ls, hls, List.count_eq_one_of_mem hnodup hpresent, rfl⟩
  have hfind := hls.mem_tags.mp hpresent
  refine ⟨?_, fun htodo => hdisj t htodo t hpresent rfl, hinsert⟩
  rcases hd with hd | hd <;> simp only [Phase, hd]
  · exact ⟨as, hw, hfind⟩
  · obtain ⟨a, ha, htag⟩ := hfind
    obtain ⟨r, post, rfl⟩ := List.exists_cons_of_ne_nil (List.ne_nil_of_mem ha)
    exact ⟨[], r, post, hls.chain.1, hw, a, ha, htag⟩

namespace Searching

/-- The thread goes on. -/
theorem goto (h : Searching t x as ls) {d : Destroy} {signal : Bool}
    (hplace : Place t (x.1.goto d, signal) as ls) : Searching t (x.1.goto d, signal) as ls :=
  ⟨listed_goto.mpr h.list, h.many, h.distinct, h.insert, hplace⟩

/-- A pass starts. -/
theorem pass (h : Searching t x as ls) {d : Destroy} (hd : d = .start ∨ d = .looked x.1.root)
    (signal : Bool) : Searching t (x.1.goto d, signal) as ls ∨
      (x.1.goto d).Inv t (ls.filter (·.tag ≠ t)) ∧ t ∈ ls.map Link.tag := by
  by_cases hpresent : t ∈ ls.map Link.tag
  · exact Or.inr ⟨inv_of_present (listed_goto.mpr h.list) h.distinct h.insert hpresent hd, hpresent⟩
  · refine Or.inl (h.goto ?_)
    rcases hd with rfl | rfl
    · exact hpresent
    · exact ⟨0, h.list.getElem?_zero, h.many, hpresent⟩

/-- An allocation touches no block in use. -/
theorem malloc (h : Searching t x as ls) {a : ℕ} {next : Option ℕ} {link : Link}
    {rest : List Link} (htodo : x.1.todo = link :: rest) (hlive : x.1.live a = false) :
    Searching t (x.1.allocated a link next, x.2) as ls := by
  refine ⟨(h.list.allocated hlive link next).1, h.many, h.distinct, fun b hb => ?_, h.place⟩
  obtain rfl := Option.some.inj hb
  simp [allocated, htodo]

/-- The place of the destruction, with an insertion in front. -/
theorem place_link (h : Searching t x as ls) {a : ℕ} {l : Link} (hnew : l.tag = t →
    x.1.destroy ≠ .start) : Place t (x.1.linked a, signalled x .link) (a :: as) (l :: ls) := by
  have hplace := h.place
  have hdestroy : (x.1.linked a).destroy = x.1.destroy := rfl
  rw [Place] at hplace ⊢
  rw [hdestroy]
  split at hplace
  · next hd =>
    rw [List.map_cons]
    exact List.not_mem_cons_of_ne_of_not_mem (fun heq => hnew heq.symm hd) hplace
  · obtain ⟨n, hn, hmany, hnot⟩ := hplace
    exact ⟨n + 1, hn, by rw [List.length_cons]; omega, hnot⟩
  · obtain ⟨n, m, hn, hnm, hm, hmany, hnot⟩ := hplace
    exact ⟨n + 1, m + 1, hn, Nat.succ_le_succ hnm, hm, by rw [List.length_cons]; omega, hnot⟩
  · obtain ⟨n, hn, hnot⟩ := hplace
    exact ⟨n + 1, hn, hnot⟩
  · next hd => exact Or.inl (by simp [signalled, hd])
  · exact hplace

/-- An insertion puts its link in front of the list. -/
theorem link (h : Searching t x as ls) {a : ℕ} (hinsert : x.1.insert = some a) :
    ∃ l rest, x.1.todo = l :: rest ∧
      (Searching t (x.1.linked a, signalled x .link) (a :: as) (l :: ls) ∨
        (x.1.linked a).Inv t ((l :: ls).filter (·.tag ≠ t)) ∧ t ∈ (l :: ls).map Link.tag) := by
  obtain ⟨hlive, hhead⟩ := h.insert a hinsert
  obtain ⟨rest, htodo⟩ := List.head?_eq_some_iff.mp hhead
  have hrest : (x.1.linked a).todo = rest := by rw [linked, htodo, List.tail_cons]
  have hlist := h.list.insert hinsert hlive
  have hdistinct : (((x.1.linked a).todo ++ (x.1.mem a).link :: ls).map Link.tag).Nodup := by
    rw [hrest, ((List.perm_middle.map Link.tag)).nodup_iff, ← List.cons_append, ← htodo]
    exact h.distinct
  refine ⟨_, rest, htodo, ?_⟩
  by_cases hnew : (x.1.mem a).link.tag = t ∧ x.1.destroy = .start
  · have hpresent : t ∈ ((x.1.mem a).link :: ls).map Link.tag := by simp [hnew.1]
    exact Or.inr ⟨inv_of_present hlist hdistinct nofun hpresent (Or.inl hnew.2), hpresent⟩
  · exact Or.inl ⟨hlist, Nat.le_succ_of_le h.many, hdistinct, nofun,
      h.place_link fun htag hd => hnew ⟨htag, hd⟩⟩

/-- **A step of the search**: it goes on, or the link is there and will be found. -/
theorem step (h : Searching t x as ls) {a : HookedAct} (hs : x.1.step t a = some s') :
    ∃ as' ls', (s'.todo ++ ls').Perm (x.1.todo ++ ls) ∧
      (Searching t (s', signalled x a) as' ls' ∨
        s'.Inv t (ls'.filter (·.tag ≠ t)) ∧ t ∈ ls'.map Link.tag) := by
  have hplace := h.place
  cases stepIs hs with
  | malloc _ htodo hlive => exact ⟨as, ls, .refl _, Or.inl (h.malloc htodo hlive)⟩
  | link hinsert _ =>
    obtain ⟨l, rest, htodo, hnext⟩ := h.link hinsert
    refine ⟨_, _, ?_, hnext⟩
    rw [linked, htodo]
    exact List.perm_middle
  | look hd => exact ⟨as, ls, .refl _, h.pass (Or.inr rfl) _⟩
  | freed hd htag =>
    simp only [Place, hd] at hplace
    obtain ⟨n, hn, -, hnot⟩ := hplace
    exact absurd htag (tag_ne_of_drop hnot le_rfl (h.list.link_eq hn))
  | other hd _ =>
    simp only [Place, hd] at hplace
    obtain ⟨n, hn, hmany, hnot⟩ := hplace
    exact ⟨as, ls, .refl _, Or.inl (h.goto ⟨n, n, hn, le_rfl, hn, hmany, hnot⟩)⟩
  | found hd hnext htag =>
    simp only [Place, hd] at hplace
    obtain ⟨n, m, -, hnm, hm, -, hnot⟩ := hplace
    have hd := (h.list.getElem?_next hm).symm.trans hnext
    exact absurd htag (tag_ne_of_drop hnot (Nat.le_succ_of_le hnm) (h.list.link_eq hd))
  | missed hd hnext htag hend =>
    simp only [Place, hd] at hplace
    obtain ⟨n, m, hn, -, -, -, hnot⟩ := hplace
    exact ⟨as, ls, .refl _, Or.inl (h.goto ⟨n, hn, hnot⟩)⟩
  | onward hd hnext htag hend =>
    simp only [Place, hd] at hplace
    obtain ⟨n, m, hn, hnm, hm, -, hnot⟩ := hplace
    have hd := (h.list.getElem?_next hm).symm.trans hnext
    rw [h.list.getElem?_next hd] at hend
    have hmany : m + 1 + 1 < as.length := by simpa using hend
    exact ⟨as, ls, .refl _, Or.inl (h.goto ⟨n, m + 1, hn, Nat.le_succ_of_le hnm, hd, hmany, hnot⟩)⟩
  | again hd _ => exact ⟨as, ls, .refl _, h.pass (Or.inr rfl) _⟩
  | sleep hd hroot =>
    simp only [Place, hd] at hplace
    obtain ⟨n, hn, hnot⟩ := hplace
    rw [← h.list.getElem?_zero, ← hn] at hroot
    have hlast : n < as.length := (List.getElem?_eq_some_iff.mp hn).1
    obtain rfl := (List.getElem?_inj hlast h.list.chain.nodup).mp hroot
    exact ⟨as, ls, .refl _, Or.inl (h.goto (Or.inr hnot))⟩
  | wake hd => exact ⟨as, ls, .refl _, h.pass (Or.inl rfl) _⟩
  | unlinked hd _ => simp only [Place, hd] at hplace
  | behind hd _ _ => simp only [Place, hd] at hplace
  | joined hd _ => simp only [Place, hd] at hplace
  | scan hd _ _ => simp only [Place, hd] at hplace

/-- The search follows no `NULL`: it looks one link ahead, and there is one. -/
theorem not_followsNull (h : Searching t x as ls) : ¬x.1.FollowsNull := by
  have hplace := h.place
  rw [Place] at hplace
  rw [FollowsNull]
  split at hplace
  · next hd => simp only [hd, not_false_eq_true]
  · next rtemp hd =>
    obtain ⟨n, hn, hmany, -⟩ := hplace
    simp only [hd, ← hn]
    simp only [List.getElem?_eq_none_iff]
    omega
  · next rtemp temp hd =>
    obtain ⟨n, m, -, -, hm, hmany, -⟩ := hplace
    simp only [hd, h.list.getElem?_next hm, List.getElem?_eq_none_iff]
    omega
  · next hd => simp only [hd, not_false_eq_true]
  · next hd => simp only [hd, not_false_eq_true]
  · exact hplace.elim

end Searching

/-! ## It comes to its end -/

theorem Ends.head (a : HookedAct) (s' : Hooked) (ha : alone x a = true)
    (hs : x.1.step t a = some s') (h : Ends t (s', signalled x a)) : Ends t x := by
  obtain ⟨y, hy, hdone⟩ := h
  refine ⟨y, hy.head (restrict_eq_some.mpr ⟨ha, ?_⟩), hdone⟩
  rw [awaiting, hs, Option.map_some]

theorem alone_of_destroys {a : HookedAct} (h : a.destroys = true) : alone x a = true := by
  rcases a <;> first | rfl | cases h

/-- A destruction that will find its link waits for nothing. -/
theorem Finishes.ends (h : x.1.Finishes t) : Ends t x := by
  obtain ⟨s, hs, hdone⟩ := h
  have hstep : ∀ (x : Hooked × Bool) a u,
      restrict (fun _ a => a.destroys = true) (Hooked.step t) x.1 a = some u →
      ∃ y, restrict (fun x a => alone x a = true) (awaiting t) x a = some y ∧ y.1 = u := by
    intro x a u ha
    obtain ⟨hown, ha⟩ := restrict_eq_some.mp ha
    refine ⟨(u, signalled x a), restrict_eq_some.mpr ⟨alone_of_destroys hown, ?_⟩, rfl⟩
    rw [awaiting, ha, Option.map_some]
  obtain ⟨y, hy, rfl⟩ := Reaches.follows Prod.fst hstep hs
  exact ⟨y, hy, hdone⟩

namespace Searching

/-- A search whose pass started before the link was there starts another. -/
theorem ends_missed (h : Searching t x as ls) (hpresent : t ∈ ls.map Link.tag) {r : ℕ}
    (hd : x.1.destroy = .missed r) : Ends t x := by
  have hplace := h.place
  simp only [Place, hd] at hplace
  obtain ⟨n, hn, hnot⟩ := hplace
  have hroot : some r ≠ x.1.root := by
    rw [← h.list.getElem?_zero, ← hn]
    intro heq
    have hlast : n < as.length := (List.getElem?_eq_some_iff.mp hn).1
    obtain rfl := (List.getElem?_inj hlast h.list.chain.nodup).mp heq
    exact hnot hpresent
  refine .head .recheck (x.1.goto (.looked x.1.root)) rfl ?_ ?_
  · simp [Hooked.step, hd, hroot]
  · exact Finishes.ends (Inv.finishes
      (inv_of_present (listed_goto.mpr h.list) h.distinct h.insert hpresent (Or.inr rfl)))

/-- …by induction on the links that are still ahead. -/
theorem ends_walking {k : ℕ} (h : Searching t x as ls) (hpresent : t ∈ ls.map Link.tag)
    {r temp n m : ℕ} (hd : x.1.destroy = .walking r temp) (hn : as[n]? = some r) (hnm : n ≤ m)
    (hm : as[m]? = some temp) (hk : m + 2 + k = as.length)
    (hnot : t ∉ (ls.drop n).map Link.tag) : Ends t x := by
  obtain ⟨d, hbehind⟩ : ∃ d, as[m + 1]? = some d := ⟨_, List.getElem?_eq_getElem (by omega)⟩
  have hnext := (h.list.getElem?_next hm).trans hbehind
  have htag := tag_ne_of_drop hnot (Nat.le_succ_of_le hnm) (h.list.link_eq hbehind)
  induction k generalizing x temp m d with
  | zero =>
    have hend : x.1.next d = none := by
      rw [h.list.getElem?_next hbehind, List.getElem?_eq_none_iff]
      omega
    refine .head .walk (x.1.goto (.missed r)) rfl ?_ ?_
    · simp [Hooked.step, hd, hnext, htag, hend]
    · refine ends_missed (h.goto ?_) hpresent rfl
      exact ⟨n, hn, hnot⟩
  | succ k ih =>
    obtain ⟨c, hc⟩ : ∃ c, as[m + 1 + 1]? = some c := ⟨_, List.getElem?_eq_getElem (by omega)⟩
    have hend := (h.list.getElem?_next hbehind).trans hc
    refine .head .walk (x.1.goto (.walking r d)) rfl ?_ ?_
    · simp [Hooked.step, hd, hnext, htag, hend]
    · have hplace : Place t (x.1.goto (.walking r d), x.2) as ls :=
        ⟨n, m + 1, hn, by omega, hbehind, by omega, hnot⟩
      have hcnot := tag_ne_of_drop hnot (by omega) (h.list.link_eq hc)
      exact ih (h.goto hplace) rfl (by omega) hbehind (by omega) c hc hend hcnot

/-- **A search comes to its end once the link is there.** -/
theorem ends (h : Searching t x as ls) (hpresent : t ∈ ls.map Link.tag) : Ends t x := by
  have hplace := h.place
  rw [Place] at hplace
  split at hplace
  · exact absurd hpresent hplace
  · next rtemp hd =>
    obtain ⟨n, hn, hmany, hnot⟩ := hplace
    obtain ⟨r, hr⟩ : ∃ r, as[n]? = some r := ⟨_, List.getElem?_eq_getElem (by omega)⟩
    obtain rfl : some r = rtemp := hr.symm.trans hn
    have htag := tag_ne_of_drop hnot le_rfl (h.list.link_eq hr)
    refine .head .compare (x.1.goto (.walking r r)) rfl ?_ ?_
    · simp [Hooked.step, hd, htag]
    · exact ends_walking (k := as.length - (n + 2))
        (h.goto ⟨n, n, hr, le_rfl, hr, hmany, hnot⟩) hpresent rfl hr le_rfl hr (by omega) hnot
  · next r temp hd =>
    obtain ⟨n, m, hn, hnm, hm, hmany, hnot⟩ := hplace
    exact h.ends_walking (k := as.length - (m + 2)) hpresent hd hn hnm hm (by omega) hnot
  · next hd => exact h.ends_missed hpresent hd
  · next hd =>
    have hsignal := hplace.resolve_right (not_not.mpr hpresent)
    refine .head .wake (x.1.goto .start) hsignal ?_ ?_
    · simp [Hooked.step, hd]
    · exact Finishes.ends (Inv.finishes
        (inv_of_present (listed_goto.mpr h.list) h.distinct h.insert hpresent (Or.inl rfl)))
  · exact hplace.elim

end Searching

/-! ## Runs -/

/-- **The invariant of a destruction that may have to wait**, where `all` is what was in the list
and is inserted: it searches, or the link is there and will be found. -/
def Awaited (t : ℕ) (all : List Link) (x : Hooked × Bool) : Prop :=
  (∃ as ls, Searching t x as ls ∧ (x.1.todo ++ ls).Perm all) ∨
    t ∈ all.map Link.tag ∧ ∃ kept, x.1.Inv t kept ∧ t ∉ kept.map Link.tag

theorem Awaited.step (h : Awaited t all x) {a : HookedAct} (hs : awaiting t x a = some y) :
    Awaited t all y := by
  obtain ⟨s, ha, rfl⟩ := Option.map_eq_some_iff.mp hs
  rcases h with ⟨as, ls, h, hperm⟩ | ⟨hall, kept, h, hgone⟩
  · obtain ⟨as', ls', hstep, hnext⟩ := h.step ha
    rcases hnext with hnext | ⟨hinv, hpresent⟩
    · exact Or.inl ⟨as', ls', hnext, hstep.trans hperm⟩
    · refine Or.inr ⟨?_, _, hinv, by simp⟩
      rw [← ((hstep.trans hperm).map Link.tag).mem_iff, List.map_append]
      exact List.mem_append_right _ hpresent
  · refine Or.inr ⟨hall, ?_⟩
    rcases h.step ha with ⟨hinv, -⟩ | ⟨l, rest, kept', htodo, -, hinv, hkept, hlost⟩
    · exact ⟨kept, hinv, hgone⟩
    · have hl : l.tag ≠ t := fun heq => h.todo (by simp [htodo, heq])
      refine ⟨kept', hinv, fun hmem => ?_⟩
      cases hreused : x.1.notReused a with
      | true =>
        rw [hkept hreused, List.map_cons] at hmem
        exact (List.mem_cons.mp hmem).elim (fun heq => hl heq.symm) hgone
      | false => exact hgone (List.map_subset _ (hlost hreused).subset hmem)

/-- What follows a `NULL` has no next step. -/
theorem FollowsNull.stuck (h : s.FollowsNull) {a : HookedAct}
    (ha : a ∈ [HookedAct.look, .compare, .walk, .unlink, .scan]) : s.step t a = none := by
  by_contra hne
  obtain ⟨s', hs⟩ := Option.ne_none_iff_exists'.mp hne
  rcases stepIs hs <;> simp_all [FollowsNull]

/-- **What the invariant promises.** -/
theorem Awaited.awaits {init todo : List Link} (h : Awaited t (todo ++ init) x)
    (habsent : t ∉ init.map Link.tag) : Awaits t init todo x := by
  rcases h with ⟨as, ls, h, hperm⟩ | ⟨hall, kept, h, hgone⟩
  · refine ⟨h.not_followsNull, fun _ => ⟨as, ls, h.list, hperm⟩, fun htodo hgone => h.ends ?_,
      fun hdone => ?_⟩
    · have hmem : t ∈ (x.1.todo ++ ls).map Link.tag :=
        (hperm.map Link.tag).mem_iff.mpr (by simp [htodo])
      rw [List.map_append] at hmem
      exact (List.mem_append.mp hmem).resolve_left hgone
    · have hplace := h.place
      simp only [Place, hdone] at hplace
  · rw [List.map_append] at hall
    have htodo := (List.mem_append.mp hall).resolve_right habsent
    refine ⟨fun hnull => ?_, fun hwait => ?_, fun _ _ => h.finishes.ends, fun hdone => ?_⟩
    · have hdone : x.1.destroy ≠ .done := fun hd => by simp [FollowsNull, hd] at hnull
      obtain ⟨a, ha, hnext⟩ := h.progress hdone
      rw [hnull.stuck ha] at hnext
      cases hnext
    · rcases hwait with hwait | hwait
      · exact absurd hwait h.todo
      · exact absurd htodo hwait
    · obtain ⟨as, has⟩ := h.of_done hdone
      exact ⟨htodo, h.todo, as, kept, has, hgone⟩

/-- A list of at most one link, without the tag, leads to a `NULL`. -/
theorem Initial.exists_followsNull {init todo : List Link} (hinit : s.Initial t init todo)
    (habsent : t ∉ init.map Link.tag) (hshort : init.length < 2) :
    ∃ x, Reaches (awaiting t) (s, false) x ∧ x.1.FollowsNull := by
  obtain ⟨as, has⟩ := hinit.list
  have hlook : awaiting t (s, false) .look = some (s.goto (.looked s.root), false) := by
    simp [awaiting, Hooked.step, hinit.destroy, signalled]
  rcases as with _ | ⟨a, _ | ⟨b, as⟩⟩
  · exact ⟨_, .single hlook, has.chain⟩
  · obtain ⟨hroot, hend⟩ : s.root = some a ∧ s.next a = none := has.chain
    have htag : (s.mem a).link.tag ≠ t := fun htag => habsent (by simp [← has.links, htag])
    refine ⟨(s.goto (.walking a a), false), (Reaches.single hlook).tail (a := .compare) ?_, hend⟩
    simp [awaiting, Hooked.step, signalled, hroot, goto, htag]
  · rw [← has.links, List.length_map, List.length_cons, List.length_cons] at hshort
    omega

end Hooked

open Hooked in
/-- **Destroying a link that is not there yet**: no `NULL` is followed, and the link is waited for
and removed, in every run exactly if the list has two links to start with. -/
theorem awaited_iff {t : ℕ} {init todo : List Link} {s₀ : Hooked}
    (hinit : s₀.Initial t init todo) (hdistinct : ((todo ++ init).map Link.tag).Nodup)
    (habsent : t ∉ init.map Link.tag) :
    (∀ x, Reaches (awaiting t) (s₀, false) x → Awaits t init todo x) ↔ 2 ≤ init.length := by
  constructor
  · intro h
    by_contra hshort
    obtain ⟨x, hx, hnull⟩ := hinit.exists_followsNull habsent (not_le.mp hshort)
    exact (h x hx).null hnull
  · intro hmany x hx
    refine Awaited.awaits (hx.invariant (fun _ _ _ h hs => h.step hs) ?_) habsent
    obtain ⟨as, has⟩ := hinit.list
    have hlength : as.length = init.length := by rw [← has.links, List.length_map]
    refine Or.inl ⟨as, init, ⟨has, hlength ▸ hmany, ?_, ?_, ?_⟩, ?_⟩
    · exact hinit.todo ▸ hdistinct
    · simp [hinit.insert]
    · simpa only [Place, hinit.destroy] using habsent
    · rw [hinit.todo]

/-- The list of two links, and a link of tag 2 to be inserted. -/
def Hooked.doubleAwaiting : Hooked := { Hooked.double with todo := [⟨2, 2⟩] }

theorem Hooked.doubleAwaiting_initial :
    Hooked.doubleAwaiting.Initial 2 [⟨0, 0⟩, ⟨1, 1⟩] [⟨2, 2⟩] where
  list := ⟨[0, 1], ⟨rfl, rfl, rfl⟩, rfl, by decide, by decide⟩
  destroy := rfl
  insert := rfl
  todo := rfl

open Hooked in
/-- The destruction sleeps until the link is inserted, and removes it. -/
theorem awaited_iff_two : ∃ x,
    run (awaiting 2) (.doubleAwaiting, false) [.look, .compare, .walk, .recheck, .malloc 2 none,
      .link, .wake, .look, .compare, .unlink] = some x ∧ x.1.destroy = .done ∧
      ∃ as ls, x.1.Listed x.1.root as none ls ∧ 2 ∉ ls.map Link.tag := by
  have hrun : run (awaiting 2) (.doubleAwaiting, false) [.look, .compare, .walk, .recheck,
      .malloc 2 none, .link, .wake, .look, .compare, .unlink] = some _ := rfl
  have hawaits := (awaited_iff doubleAwaiting_initial (by decide) (by decide)).mpr (by decide) _
    ⟨_, hrun⟩
  exact ⟨_, hrun, rfl, (hawaits.removed rfl).2.2⟩

/-- A hook without links, and a link of tag 1 to be inserted. -/
def Hooked.bare : Hooked := { Hooked.single with root := none }

open Hooked in
/-- **An empty list, and a list of one link**: the root's tag is read through a `NULL`, or that of
the link behind it. -/
theorem null_followed :
    Hooked.bare.Initial 1 [] [⟨1, 1⟩] ∧
    (∃ x, Reaches (awaiting 1) (.bare, false) x ∧ x.1.destroy = .looked none ∧ x.1.FollowsNull) ∧
    Hooked.single.Initial 1 [⟨0, 0⟩] [⟨1, 1⟩] ∧
    ∃ x, Reaches (awaiting 1) (.single, false) x ∧ x.1.destroy = .walking 0 0 ∧
      x.1.FollowsNull := by
  refine ⟨⟨⟨[], rfl, rfl, by simp, by simp⟩, rfl, rfl, rfl⟩, ⟨_, ⟨[.look], rfl⟩, rfl, rfl⟩,
    ⟨single_initial.list, rfl, rfl, rfl⟩, ⟨_, ⟨[.look, .compare], rfl⟩, rfl, rfl⟩⟩

end Libdsys
