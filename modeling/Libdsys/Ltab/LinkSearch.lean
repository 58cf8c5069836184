import Libdsys.Ltab.Awaiting

/-!
# Ltab/LinkSearch — looking for a link while others are inserted

`__bc_link_search` reads the root under the hook's lock, and goes through the links from there on
without it.  Where it has found nothing it takes the lock again, and sleeps only if the root is
still what it was: an insertion changes the root and nothing else of the list.

* `Sought.Inv` — what it has gone through is a piece of the list without the tag.
* `no_lost_wakeup` — it sleeps only while the link is not there, and returns the link.
-/

open Machinery

namespace Libdsys

/-- Where the service thread stands in `__bc_link_search`; `dummy` is the root as it read it. -/
inductive LinkSearch
  /-- Before its first lock section. -/
  | start
  /-- It goes through the links, and is at `temp`. -/
  | walking (dummy temp : Option ℕ)
  /-- It sleeps, and no wake-up is pending. -/
  | asleep
  /-- It is woken, and about to take the lock again. -/
  | woken
  /-- It has returned. -/
  | found (temp : ℕ)
deriving Repr, DecidableEq

/-- `bc_cond_signal` on the hook's condition variable, where no other thread waits. -/
def LinkSearch.signal : LinkSearch → LinkSearch
  | .asleep => .woken
  | st => st

/-- A hook, and the search of its service thread. -/
structure Sought where
  hook : Hooked
  search : LinkSearch

inductive SoughtAct
  /-- `bc_malloc` of a link, and its fields. -/
  | malloc (a : ℕ) (next : Option ℕ)
  /-- The lock section of an insertion, with its signal. -/
  | link
  /-- The lock section in which the root is read: the first one, or the one behind a wait. -/
  | look
  /-- Once round the loop through the links. -/
  | compare
  /-- The lock section behind a miss. -/
  | recheck
  /-- The wait ends without a signal. -/
  | spurious
deriving DecidableEq

namespace Sought

/-- The search for tag `t` and the insertions, a step at a time. -/
def step (t : ℕ) (s : Sought) : SoughtAct → Option Sought
  | .malloc a next => (s.hook.step t (.malloc a next)).map fun hook => { s with hook }
  | .link => (s.hook.step t .link).map fun hook => ⟨hook, s.search.signal⟩
  | .look =>
    match s.search with
    | .start | .woken => some { s with search := .walking s.hook.root s.hook.root }
    | _ => none
  | .compare =>
    match s.search with
    | .walking dummy (some temp) =>
      if (s.hook.mem temp).link.tag = t then some { s with search := .found temp }
      else some { s with search := .walking dummy (s.hook.next temp) }
    | _ => none
  | .recheck =>
    match s.search with
    | .walking dummy none =>
      if dummy ≠ s.hook.root then some { s with search := .walking s.hook.root s.hook.root }
      else some { s with search := .asleep }
    | _ => none
  | .spurious =>
    match s.search with
    | .asleep => some { s with search := .woken }
    | _ => none

/-- **What a step can be**, and what is true before it. -/
inductive Moves (t : ℕ) (s : Sought) : Sought → Prop
  | malloc {a next hook} (hs : s.hook.step t (.malloc a next) = some hook) :
    Moves t s { s with hook }
  | link {hook} (hs : s.hook.step t .link = some hook) : Moves t s ⟨hook, s.search.signal⟩
  | look : Moves t s { s with search := .walking s.hook.root s.hook.root }
  | found {dummy temp} (hd : s.search = .walking dummy (some temp))
    (htag : (s.hook.mem temp).link.tag = t) : Moves t s { s with search := .found temp }
  | onward {dummy temp} (hd : s.search = .walking dummy (some temp))
    (htag : (s.hook.mem temp).link.tag ≠ t) :
    Moves t s { s with search := .walking dummy (s.hook.next temp) }
  | sleep (hd : s.search = .walking s.hook.root none) : Moves t s { s with search := .asleep }
  | wake : Moves t s { s with search := .woken }

variable {t : ℕ} {s s' : Sought} {as : List ℕ} {ls : List Link}

theorem moves {a : SoughtAct} (hs : s.step t a = some s') : Moves t s s' := by
  rcases a with ⟨a, next⟩ | _ | _ | _ | _ | _ <;> rw [step] at hs
  · obtain ⟨hook, hhook, rfl⟩ := Option.map_eq_some_iff.mp hs
    exact .malloc hhook
  · obtain ⟨hook, hhook, rfl⟩ := Option.map_eq_some_iff.mp hs
    exact .link hhook
  · split at hs <;> cases hs
    · exact .look
    · exact .look
  · split at hs
    · next dummy temp hd =>
      split at hs <;> cases hs
      · next htag => exact .found hd htag
      · next htag => exact .onward hd htag
    · cases hs
  · split at hs
    · next dummy hd =>
      split at hs <;> cases hs
      · exact .look
      · next hroot => exact .sleep (not_not.mp hroot ▸ hd)
    · cases hs
  · split at hs <;> cases hs
    exact .wake

/-- **Where the search is**: from the `n`-th link on, those before the `m`-th have another tag. -/
def Place (t : ℕ) (s : Sought) (as : List ℕ) (ls : List Link) : Prop :=
  match s.search with
  | .walking dummy temp => ∃ n m : ℕ, as[n]? = dummy ∧ n ≤ m ∧ as[m]? = temp ∧
      ∀ i (l : Link), n ≤ i → i < m → ls[i]? = some l → l.tag ≠ t
  | .asleep => t ∉ ls.map Link.tag
  | .found temp => temp ∈ as ∧ (s.hook.mem temp).link.tag = t
  | _ => True

/-- **The invariant**, where the links `ls` are in the blocks `as`. -/
structure Inv (t : ℕ) (s : Sought) (as : List ℕ) (ls : List Link) : Prop where
  list : s.hook.Listed s.hook.root as none ls
  insert : ∀ a, s.hook.insert = some a →
    s.hook.live a = true ∧ s.hook.todo.head? = some (s.hook.mem a).link
  place : Place t s as ls

namespace Inv

/-- The search goes on. -/
theorem goto (h : s.Inv t as ls) {search : LinkSearch}
    (hplace : Place t { s with search } as ls) : Inv t { s with search } as ls :=
  ⟨h.list, h.insert, hplace⟩

/-- A pass starts at the root. -/
theorem look (h : s.Inv t as ls) :
    Inv t { s with search := .walking s.hook.root s.hook.root } as ls :=
  h.goto ⟨0, 0, h.list.getElem?_zero, le_rfl, h.list.getElem?_zero, fun _ _ _ hlt =>
    absurd hlt (Nat.not_lt_zero _)⟩

/-- A link of another tag is passed. -/
theorem onward (h : s.Inv t as ls) {dummy : Option ℕ} {temp : ℕ}
    (hd : s.search = .walking dummy (some temp)) (htag : (s.hook.mem temp).link.tag ≠ t) :
    Inv t { s with search := .walking dummy (s.hook.next temp) } as ls := by
  have hplace := h.place
  rw [Place, hd] at hplace
  obtain ⟨n, m, hn, hnm, hm, hpassed⟩ := hplace
  refine h.goto ⟨n, m + 1, hn, Nat.le_succ_of_le hnm, (h.list.getElem?_next hm).symm, ?_⟩
  intro i l hni him hl
  rcases Nat.lt_succ_iff_lt_or_eq.mp him with hlt | rfl
  · exact hpassed i l hni hlt hl
  · obtain rfl : (s.hook.mem temp).link = l := Option.some.inj ((h.list.link_eq hm).symm.trans hl)
    exact htag

/-- **It falls asleep only behind the whole list**: a root that has not changed is the first link,
and the pass has come to the end. -/
theorem sleep (h : s.Inv t as ls) (hd : s.search = .walking s.hook.root none) :
    Inv t { s with search := .asleep } as ls := by
  have hplace := h.place
  rw [Place, hd] at hplace
  obtain ⟨n, m, hn, -, hm, hpassed⟩ := hplace
  refine h.goto fun hmem => ?_
  obtain ⟨l, hl, htag⟩ := List.mem_map.mp hmem
  obtain ⟨i, hi⟩ := List.getElem?_of_mem hl
  have hlen : ls.length = as.length := by rw [← h.list.links, List.length_map]
  have hilt := (List.getElem?_eq_some_iff.mp hi).1
  have hpast := List.getElem?_eq_none_iff.mp hm
  have hfirst : n = 0 := by
    rw [← h.list.getElem?_zero] at hn
    exact (List.getElem?_inj (by omega) h.list.chain.nodup).mp hn.symm |>.symm
  exact hpassed i l (by omega) (by omega) hi htag

/-- An allocation touches no link. -/
theorem malloc (h : s.Inv t as ls) {a : ℕ} {next : Option ℕ} {hook : Hooked}
    (hs : s.hook.step t (.malloc a next) = some hook) :
    Inv t { s with hook } as ls ∧ hook.todo = s.hook.todo := by
  cases Hooked.stepIs hs with
  | malloc _ htodo hlive =>
    obtain ⟨hlist, hsame⟩ := h.list.allocated hlive _ next
    refine ⟨⟨hlist, fun b hb => ?_, ?_⟩, rfl⟩
    · obtain rfl := Option.some.inj hb
      simp [Hooked.allocated, htodo]
    · have hplace := h.place
      rw [Place] at hplace ⊢
      dsimp only
      split at hplace
      · exact hplace
      · exact hplace
      · exact ⟨hplace.1, (congrArg Link.tag (hsame _ hplace.1)).trans hplace.2⟩
      · trivial

/-- **An insertion goes in front of the list**, and wakes a search that sleeps. -/
theorem link (h : s.Inv t as ls) {hook : Hooked} (hs : s.hook.step t .link = some hook) :
    ∃ a l rest, s.hook.todo = l :: rest ∧ hook.todo = rest ∧
      Inv t ⟨hook, s.search.signal⟩ (a :: as) (l :: ls) := by
  cases Hooked.stepIs hs with
  | @link a hinsert _ =>
    obtain ⟨hlive, hhead⟩ := h.insert a hinsert
    obtain ⟨rest, htodo⟩ := List.head?_eq_some_iff.mp hhead
    refine ⟨a, _, rest, htodo, by rw [Hooked.linked, htodo, List.tail_cons],
      h.list.insert hinsert hlive, nofun, ?_⟩
    have hplace := h.place
    rw [Place] at hplace
    split at hplace
    · next dummy temp hd =>
      obtain ⟨n, m, hn, hnm, hm, hpassed⟩ := hplace
      rw [hd]
      refine ⟨n + 1, m + 1, hn, Nat.succ_le_succ hnm, hm, fun i l hni him hl => ?_⟩
      obtain ⟨i, rfl⟩ := Nat.exists_eq_succ_of_ne_zero (Nat.ne_zero_of_lt hni)
      exact hpassed i l (Nat.le_of_succ_le_succ hni) (Nat.lt_of_succ_lt_succ him) hl
    · next hd =>
      rw [hd]
      trivial
    · next temp hd =>
      rw [hd]
      exact ⟨List.mem_cons_of_mem _ hplace.1,
        (congrArg Link.tag ((h.list.linked hinsert).2 temp hplace.1)).trans hplace.2⟩
    · next hwalking hasleep hfound =>
      cases hd : s.search with
      | start | woken => trivial
      | walking dummy temp => exact absurd hd (hwalking dummy temp)
      | asleep => exact absurd hd hasleep
      | found temp => exact absurd hd (hfound temp)

/-- **What a step does to the list**: nothing, or an insertion. -/
theorem step (h : s.Inv t as ls) {a : SoughtAct} (hs : s.step t a = some s') :
    ∃ as' ls', s'.Inv t as' ls' ∧ (s'.hook.todo ++ ls').Perm (s.hook.todo ++ ls) := by
  cases moves hs with
  | malloc hhook =>
    obtain ⟨hinv, htodo⟩ := h.malloc hhook
    exact ⟨as, ls, hinv, by rw [htodo]⟩
  | link hhook =>
    obtain ⟨a, l, rest, htodo, hrest, hinv⟩ := h.link hhook
    refine ⟨_, _, hinv, ?_⟩
    rw [htodo, hrest]
    exact List.perm_middle
  | look => exact ⟨as, ls, h.look, .refl _⟩
  | found hd htag =>
    have hplace := h.place
    rw [Place, hd] at hplace
    obtain ⟨n, m, -, -, hm, -⟩ := hplace
    exact ⟨as, ls, h.goto ⟨List.mem_of_getElem? hm, htag⟩, .refl _⟩
  | onward hd htag => exact ⟨as, ls, h.onward hd htag, .refl _⟩
  | sleep hd => exact ⟨as, ls, h.sleep hd, .refl _⟩
  | wake => exact ⟨as, ls, h.goto trivial, .refl _⟩

/-- The invariant of a search and its insertions, from the list as it was. -/
theorem of_reaches {init todo : List Link} {s₀ : Sought} (hinit : s₀.hook.Initial t init todo)
    (hstart : s₀.search = .start) (hs : Reaches (Sought.step t) s₀ s) :
    ∃ as ls, s.Inv t as ls ∧ (s.hook.todo ++ ls).Perm (todo ++ init) := by
  obtain ⟨⟨as, hlist⟩, hdestroy, hinsert, htodo⟩ := hinit
  have hinv : s₀.Inv t as init :=
    ⟨hlist, fun a ha => by simp [hinsert] at ha, by rw [Place, hstart]; trivial⟩
  refine hs.invariant (P := fun s => ∃ as ls, s.Inv t as ls ∧
    (s.hook.todo ++ ls).Perm (todo ++ init)) ?_ ⟨as, init, hinv, by rw [htodo]⟩
  rintro u a v ⟨as, ls, hu, hperm⟩ ha
  obtain ⟨as', ls', hv, hnext⟩ := hu.step ha
  exact ⟨as', ls', hv, hnext.trans hperm⟩

end Inv

end Sought

/-- **No wake-up is lost.**  In every state that a search for tag `t` and the insertions of `todo`
lead to, the list has what was in it and what has been inserted; while the search sleeps and no
wake-up is pending, no link in it has the tag; and the link that the search returns is in it and has
the tag, which is no other link's if the tags are distinct. -/
theorem no_lost_wakeup {t : ℕ} {init todo : List Link} {s₀ s : Sought}
    (hinit : s₀.hook.Initial t init todo) (hstart : s₀.search = .start)
    (hs : Reaches (Sought.step t) s₀ s) :
    ∃ as ls, s.hook.Listed s.hook.root as none ls ∧
      (s.hook.todo ++ ls).Perm (todo ++ init) ∧
      (s.search = .asleep → t ∉ ls.map Link.tag) ∧
      ∀ temp, s.search = .found temp → temp ∈ as ∧ (s.hook.mem temp).link.tag = t ∧
        (((todo ++ init).map Link.tag).Nodup →
          ∀ a ∈ as, (s.hook.mem a).link.tag = t → a = temp) := by
  obtain ⟨as, ls, hinv, hperm⟩ := Sought.Inv.of_reaches hinit hstart hs
  have hplace := hinv.place
  rw [Sought.Place] at hplace
  refine ⟨as, ls, hinv.list, hperm, fun hd => ?_, fun temp hd => ?_⟩
  · rwa [hd] at hplace
  · rw [hd] at hplace
    refine ⟨hplace.1, hplace.2, fun hdistinct a ha htag => ?_⟩
    have hnodup : (as.map fun b => (s.hook.mem b).link.tag).Nodup := by
      have htags : as.map (fun b => (s.hook.mem b).link.tag) = ls.map Link.tag := by
        rw [← hinv.list.links, List.map_map]
        rfl
      rw [htags]
      rw [← (hperm.map Link.tag).nodup_iff, List.map_append] at hdistinct
      exact (List.nodup_append.mp hdistinct).2.1
    exact List.inj_on_of_nodup_map hnodup ha hplace.1 (htag.trans hplace.2.symm)

/-- A search for tag 1 in the list of tag 0: it sleeps until the link is inserted, and returns
it. -/
theorem no_lost_wakeup_inserted : ∃ s, run (Sought.step 1) ⟨.single, .start⟩
      [.look, .compare, .recheck, .malloc 1 none, .link, .look, .compare] = some s ∧
    s.search = .found 1 ∧ (s.hook.mem 1).link.tag = 1 := by
  have hrun : run (Sought.step 1) ⟨.single, .start⟩
      [.look, .compare, .recheck, .malloc 1 none, .link, .look, .compare] = some _ := rfl
  have hinit : Hooked.single.Initial 1 [⟨0, 0⟩] [⟨1, 1⟩] :=
    ⟨Hooked.single_initial.list, rfl, rfl, rfl⟩
  obtain ⟨as, ls, -, -, -, hfound⟩ := no_lost_wakeup hinit rfl ⟨_, hrun⟩
  exact ⟨_, hrun, rfl, (hfound 1 rfl).2.1⟩

end Libdsys
