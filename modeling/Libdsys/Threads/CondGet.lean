import Libdsys.Threads.Service

/-!
# Threads/CondGet — does a conditional get wait?

`__BC_SERVICE_COND_GET` is to *receive data if available, else return*.  The sends keep to that; the
search for the link, which comes before them, does not: it waits until the link is inserted,
whatever the code of the request is.  A poll is prompt exactly when the producer has already made
the sink it asks for.

* `Server.Fit` — every link leads to a queue inside its blocks.
* `Server.Handles.step` — a conditional request that has its link comes nearer to its answer.
* `cond_get_prompt_iff` — and only such a request is answered without a wait.
-/

open Machinery

namespace Libdsys

variable {P : Type}

/-- What the service thread itself does. -/
def ServerAct.own : ServerAct P → Bool
  | .recv | .lookup | .search | .recheck | .spurious | .send | .destroyed _ => true
  | _ => false

/-- A sink without memory copy is made only where its block has room for its units. -/
def ServerAct.fits : ServerAct P → Bool
  | .sinkCreate _ ch => ch.fits
  | _ => true

/-- The GET or COND_GET in hand. -/
def ServicePhase.request? : ServicePhase → Option ServiceRequest
  | .lookup r | .searching r | .missed r _ | .asleep r | .sending r _ | .blocked r _ => some r
  | .idle | .destroying _ => none

namespace Server

/-! ## What is asked of a conditional get -/

/-- The thread is in a condition wait for a conditional request. -/
def CondWaits (s : Server P) : Prop :=
  ∃ r : ServiceRequest, r.condRecv ∧ (s.phase = .asleep r ∨ ∃ link, s.phase = .blocked r link)

/-- The flag 0, or the flag 1 and the data of a channel. -/
def CondAnswer (s : Server P) (r : ServiceRequest) (fd : List Byte) : Prop :=
  fd = intBytes 0 ∨ ∃ ch ∈ s.chans.map Prod.fst, ∃ data : List Byte,
    data.length = ch.replySize (sizeMul ch.dtype.bytes r.dunits) ∧ fd = intBytes 1 ++ data

variable [DecidableEq P]

/-- The steps of a service thread with a cache, where every block has room for its units. -/
def fitStep (self remote : P) : Server P → ServerAct P → Option (Server P) :=
  restrict (fun _ a => a.fits) (Server.step true self remote)

/-- **No conditional request waits**: those answered have a flag, and the one in hand can go on. -/
structure Prompt (self remote : P) (s : Server P) : Prop where
  awake : ¬ s.CondWaits
  answers : ∀ x ∈ s.answers, x.1.condRecv → s.CondAnswer x.1 x.2
  moves : ∀ r, s.phase.request? = some r → r.condRecv →
    ∃ a : ServerAct P, a.own ∧ (s.step true self remote a).isSome

/-- **A poll is prompt**: whatever happens once the thread has received the request `r`, it is
answered within three of the thread's steps, and until then the thread is never in a wait. -/
def PollsPromptly (self remote : P) (s : Server P) (r : ServiceRequest) : Prop :=
  ∀ acts t, run (fitStep self remote) s (.recv :: acts) = some t →
    (∃ fd, t.answers[s.answers.length]? = some (r, fd) ∧ t.CondAnswer r fd) ∨
    (¬ t.CondWaits ∧ acts.countP ServerAct.own < 3 ∧
      ∃ a : ServerAct P, a.own ∧ (t.step true self remote a).isSome)

/-- A conditional request is received only when its link is in the hook. -/
def timely (s : Server P) : ServerAct P → Bool
  | .recv => s.requests.head?.all fun r => !r.condRecv || (linkSearch s.links r.tag).isSome
  | _ => true

/-! ## Links lead to queues -/

/-- A link leads to a channel to `remote`. -/
def LeadsTo (remote : P) (s : Server P) (link : Link) : Prop :=
  ∃ ch, (s.chans.map Prod.fst)[link.channel]? = some ch ∧ remote ∈ ch.plist

/-- **Every link of the hook, and that of the send in hand, leads to a queue inside its blocks.** -/
structure Fit (remote : P) (s : Server P) : Prop where
  sound : ∀ x ∈ s.chans, x.2.Sound x.1 ∧ x.1.role.c.isSome
  links : ∀ l ∈ s.links, s.LeadsTo remote l
  sending : ∀ r l, s.phase = .sending r l ∨ s.phase = .blocked r l → s.LeadsTo remote l

section Links

variable {self remote : P} {s t : Server P} {a : ServerAct P} {r : ServiceRequest} {link : Link}

omit [DecidableEq P] in
theorem fit_start (remote : P) : (start : Server P).Fit remote where
  sound := fun _ h => absurd h List.not_mem_nil
  links := fun _ h => absurd h List.not_mem_nil
  sending := fun r l h => by rcases h with h | h <;> cases h

omit [DecidableEq P] in
theorem LeadsTo.mono (h : s.LeadsTo remote link)
    (hchans : s.chans.map Prod.fst <+: t.chans.map Prod.fst) : t.LeadsTo remote link := by
  obtain ⟨ch, hch, hmem⟩ := h
  obtain ⟨rest, hrest⟩ := hchans
  refine ⟨ch, ?_, hmem⟩
  rw [← hrest, List.getElem?_append_left (List.getElem?_eq_some_iff.mp hch).1, hch]

omit [DecidableEq P] in
theorem CondAnswer.mono {fd : List Byte} (h : s.CondAnswer r fd)
    (hchans : s.chans.map Prod.fst <+: t.chans.map Prod.fst) : t.CondAnswer r fd := by
  rcases h with rfl | ⟨ch, hch, hdata⟩
  · exact .inl rfl
  · exact .inr ⟨ch, hchans.subset hch, hdata⟩

omit [DecidableEq P] in
/-- To change a queue changes no channel. -/
theorem map_fst_set {c : ℕ} {ch : SinkChan P} {queue queue' : Queue P}
    (hc : s.chans[c]? = some (ch, queue)) :
    (s.chans.set c (ch, queue')).map Prod.fst = s.chans.map Prod.fst := by
  obtain ⟨hlt, heq⟩ := List.getElem?_eq_some_iff.mp hc
  refine List.ext_getElem? fun i => ?_
  rw [List.getElem?_map, List.getElem?_map, List.getElem?_set]
  split
  case isTrue hi =>
    obtain rfl := hi
    rw [hc]
    rfl
  case isFalse hi => rfl

omit [DecidableEq P] in
theorem Fit.set (h : s.Fit remote) {c : ℕ} {ch : SinkChan P} {queue queue' : Queue P}
    (hc : s.chans[c]? = some (ch, queue)) (hqueue : queue'.Sound ch) :
    ∀ x ∈ s.chans.set c (ch, queue'), x.2.Sound x.1 ∧ x.1.role.c.isSome := by
  intro x hx
  rcases List.mem_or_eq_of_mem_set hx with hx | rfl
  · exact h.sound x hx
  · exact ⟨hqueue, (h.sound _ (List.mem_of_getElem? hc)).2⟩

/-- **A send answers, or waits for a request that is not conditional.** -/
theorem Fit.sendStep (h : s.Fit remote) (hlink : s.LeadsTo remote link) (r : ServiceRequest) :
    (∃ chans fd, s.sendStep remote r link = some ({ s with chans }.answered r fd) ∧
      chans.map Prod.fst = s.chans.map Prod.fst ∧
      (∀ x ∈ chans, x.2.Sound x.1 ∧ x.1.role.c.isSome) ∧ (r.condRecv → s.CondAnswer r fd)) ∨
    (r.condRecv = false ∧ s.sendStep remote r link = some { s with phase := .blocked r link }) := by
  obtain ⟨ch, hch, hmem⟩ := hlink
  rw [List.getElem?_map] at hch
  obtain ⟨⟨ch, queue⟩, hc, rfl⟩ := Option.map_eq_some_iff.mp hch
  obtain ⟨hsound, hrole⟩ := h.sound _ (List.mem_of_getElem? hc)
  obtain ⟨queue', data, hqueue, hdata, hsend⟩ | hsend := hsound.send_eq hrole hmem link.tag
    (sizeMul ch.dtype.bytes r.dunits) r.condRecv
  · refine .inl ⟨s.chans.set link.channel (ch, queue'), preamble r.condRecv ++ data, ?_,
      map_fst_set hc, h.set hc hqueue, fun hcond => ?_⟩
    · simp [Server.sendStep, hc, hsend]
    · have hfst : ch ∈ s.chans.map Prod.fst :=
        List.mem_map.mpr ⟨(ch, queue), List.mem_of_getElem? hc, rfl⟩
      exact .inr ⟨ch, hfst, data, hdata, by rw [hcond]; rfl⟩
  · cases hcond : r.condRecv with
    | true =>
      rw [hcond] at hsend
      refine .inl ⟨s.chans, intBytes 0, ?_, rfl, h.sound, fun _ => .inl rfl⟩
      simp [Server.sendStep, hc, hsend, hcond]
    | false =>
      rw [hcond] at hsend
      exact .inr ⟨rfl, by simp [Server.sendStep, hc, hsend, hcond]⟩

/-- Channels are only ever added. -/
theorem Fit.chans_prefix (h : s.Fit remote) (ha : Moves true self remote s a t) :
    s.chans.map Prod.fst <+: t.chans.map Prod.fst := by
  cases ha with
  | sinkCreate hrole hunits => simp
  | queue hc hop => exact (map_fst_set hc) ▸ List.prefix_refl _
  | @send r link t hphase hsend =>
    obtain ⟨chans, fd, heq, hfst, -⟩ | ⟨-, heq⟩ := h.sendStep (h.sending r link hphase) r
    · obtain rfl := Option.some.inj (hsend.symm.trans heq)
      exact hfst ▸ List.prefix_refl _
    · obtain rfl := Option.some.inj (hsend.symm.trans heq)
      exact List.prefix_refl _
  | _ => exact List.prefix_refl _

theorem Fit.moves (h : s.Fit remote) (hinv : s.Inv) (hfits : a.fits)
    (ha : Moves true self remote s a t) : t.Fit remote := by
  have hchans := h.chans_prefix ha
  have hlinks : ∀ l ∈ s.links, t.LeadsTo remote l := fun l hl => (h.links l hl).mono hchans
  have hsending : t.phase = s.phase → ∀ r l, t.phase = .sending r l ∨ t.phase = .blocked r l →
      t.LeadsTo remote l := fun hphase r l hl => (h.sending r l (hphase ▸ hl)).mono hchans
  cases ha with
  | @sinkCreate fresh ch hrole hunits =>
    refine ⟨fun x hx => ?_, hlinks, hsending rfl⟩
    rcases List.mem_append.mp hx with hx | hx
    · exact h.sound x hx
    · obtain rfl := List.mem_singleton.mp hx
      exact ⟨Queue.sound_create fresh self _ hfits, hrole⟩
  | @linkInsert c ch queue hc hmem =>
    refine ⟨h.sound, fun l hl => ?_, fun r l hl => ?_⟩
    · rcases List.mem_cons.mp hl with rfl | hl
      · exact ⟨ch, by rw [List.getElem?_map, hc]; rfl, hmem⟩
      · exact hlinks l hl
    · refine h.sending r l ?_
      cases hphase : s.phase <;> simp_all [ServicePhase.signal]
  | @queue c op ch queue queue' hc hop =>
    exact ⟨h.set hc ((h.sound _ (List.mem_of_getElem? hc)).1.run hop), hlinks, hsending rfl⟩
  | arrive => exact ⟨h.sound, hlinks, hsending rfl⟩
  | @hit r link hphase hcached hlink htag =>
    refine ⟨h.sound, hlinks, fun r' l hl => ?_⟩
    have hlead := hlinks link (hinv.clink link hlink).1
    rcases hl with hl | hl
    · obtain ⟨-, rfl⟩ := ServicePhase.sending.inj hl
      exact hlead
    · cases hl
  | @found r link hphase hfind =>
    refine ⟨h.sound, hlinks, fun r' l hl => ?_⟩
    have hlead := hlinks link (linkSearch_eq_some hfind).1
    rcases hl with hl | hl
    · obtain ⟨-, rfl⟩ := ServicePhase.sending.inj hl
      exact hlead
    · cases hl
  | @send r link t hphase hsend =>
    have hlead := h.sending r link hphase
    obtain ⟨chans, fd, heq, hfst, hsound, -⟩ | ⟨-, heq⟩ := h.sendStep hlead r
    · obtain rfl := Option.some.inj (hsend.symm.trans heq)
      exact ⟨hsound, hlinks, fun r' l hl => by rcases hl with hl | hl <;> cases hl⟩
    · obtain rfl := Option.some.inj (hsend.symm.trans heq)
      refine ⟨h.sound, hlinks, fun r' l hl => ?_⟩
      rcases hl with hl | hl
      · cases hl
      · obtain ⟨-, rfl⟩ := ServicePhase.blocked.inj hl
        exact hlead
  | destroyed hphase hdestroy hkept =>
    obtain ⟨-, hperm⟩ := Process.linkDestroy_eq_some hdestroy
    exact ⟨h.sound, fun l hl => hlinks l
      (hperm.mem_iff.mpr (List.mem_cons_of_mem _ (hkept.subset hl))),
      fun r l hl => by rcases hl with hl | hl <;> cases hl⟩
  | _ => exact ⟨h.sound, hlinks, fun r l hl => by rcases hl with hl | hl <;> cases hl⟩

/-! ## From the receipt to the answer -/

/-- **The conditional request in hand has its link**, and is `n` steps from its answer. -/
inductive Handles (r : ServiceRequest) (s : Server P) : ℕ → Prop
  | lookup (hphase : s.phase = .lookup r) (hfound : (linkSearch s.links r.tag).isSome) :
    Handles r s 3
  | searching (hphase : s.phase = .searching r) (hfound : (linkSearch s.links r.tag).isSome) :
    Handles r s 2
  | sending (link : Link) (hphase : s.phase = .sending r link) : Handles r s 1

variable {n : ℕ}

omit [DecidableEq P] in
theorem Handles.request (h : Handles r s n) : s.phase.request? = some r := by
  cases h with
  | lookup hphase | searching hphase | sending link hphase => rw [hphase]; rfl

omit [DecidableEq P] in
theorem Handles.not_condWaits (h : Handles r s n) : ¬ s.CondWaits := by
  rintro ⟨r', -, hphase' | ⟨link, hphase'⟩⟩
  · cases h with
    | lookup hphase | searching hphase | sending link' hphase => cases hphase.symm.trans hphase'
  · cases h with
    | lookup hphase | searching hphase | sending link' hphase => cases hphase.symm.trans hphase'

omit [DecidableEq P] in
/-- What leaves the phase alone, and the links in the hook. -/
theorem Handles.congr (h : Handles r s n) (hphase : t.phase = s.phase)
    (hlinks : s.links <:+ t.links) : Handles r t n := by
  have hfound : (linkSearch s.links r.tag).isSome → (linkSearch t.links r.tag).isSome := by
    intro hs
    obtain ⟨rest, hrest⟩ := hlinks
    rw [linkSearch, ← hrest, List.find?_append]
    obtain ⟨l, hl⟩ := Option.isSome_iff_exists.mp hs
    rw [linkSearch] at hl
    cases List.find? (fun l => l.tag = r.tag) rest <;> simp [hl]
  cases h with
  | lookup h hs => exact .lookup (hphase.trans h) (hfound hs)
  | searching h hs => exact .searching (hphase.trans h) (hfound hs)
  | sending link h => exact .sending link (hphase.trans h)

/-- **A conditional request that has its link** comes nearer to its answer with each step of the
thread, and no other step takes that away. -/
theorem Handles.step (h : Handles r s n) (hcond : r.condRecv) (hfit : s.Fit remote)
    (ha : Moves true self remote s a t) :
    (∃ m, Handles r t m ∧ m + a.own.toNat ≤ n ∧ t.answers = s.answers) ∨
    (n = 1 ∧ t.phase = .idle ∧ ∃ fd, t.answers = s.answers ++ [(r, fd)] ∧ s.CondAnswer r fd) := by
  have other : a.own = false → t.phase = s.phase → s.links <:+ t.links → t.answers = s.answers →
      ∃ m, Handles r t m ∧ m + a.own.toNat ≤ n ∧ t.answers = s.answers :=
    fun hown hphase hlinks hanswers => ⟨n, h.congr hphase hlinks, by rw [hown]; rfl, hanswers⟩
  have hrequest := h.request
  cases ha with
  | sinkCreate | arrive | queue => exact .inl (other rfl rfl (List.suffix_refl _) rfl)
  | linkInsert hc hmem =>
    refine .inl (other rfl ?_ (List.suffix_cons _ _) rfl)
    cases h with
    | lookup hphase | searching hphase | sending link hphase =>
      change s.phase.signal = s.phase
      rw [hphase]
      rfl
  | hit hphase hcached hlink htag =>
    rw [hphase] at hrequest
    obtain rfl := Option.some.inj hrequest
    cases h with
    | lookup => exact .inl ⟨1, .sending _ rfl, by simp [ServerAct.own], rfl⟩
    | searching h | sending _ h => cases hphase.symm.trans h
  | miss hphase hmiss =>
    rw [hphase] at hrequest
    obtain rfl := Option.some.inj hrequest
    cases h with
    | lookup _ hfound => exact .inl ⟨2, .searching rfl hfound, by simp [ServerAct.own], rfl⟩
    | searching h | sending _ h => cases hphase.symm.trans h
  | found hphase hfind =>
    rw [hphase] at hrequest
    obtain rfl := Option.some.inj hrequest
    cases h with
    | searching => exact .inl ⟨1, .sending _ rfl, by simp [ServerAct.own], rfl⟩
    | lookup h | sending _ h => cases hphase.symm.trans h
  | missed hphase hfind =>
    rw [hphase] at hrequest
    obtain rfl := Option.some.inj hrequest
    cases h with
    | searching _ hfound => simp [hfind] at hfound
    | lookup h | sending _ h => cases hphase.symm.trans h
  | @send r' link t hphase hsend =>
    have hr : r' = r := by
      rcases hphase with hphase | hphase
      · rw [hphase] at hrequest
        exact Option.some.inj hrequest
      · rw [hphase] at hrequest
        exact Option.some.inj hrequest
    subst hr
    obtain ⟨chans, fd, heq, hfst, -, hanswer⟩ | ⟨hget, -⟩ :=
      hfit.sendStep (hfit.sending r' link hphase) r'
    · obtain rfl := Option.some.inj (hsend.symm.trans heq)
      refine .inr ⟨?_, rfl, fd, rfl, hanswer hcond⟩
      cases h with
      | sending => rfl
      | lookup h | searching h => rcases hphase with hphase | hphase <;> cases hphase.symm.trans h
    · rw [hcond] at hget
      cases hget
  | get hphase | kill hphase | echo hphase | destroyed hphase =>
    rw [hphase] at hrequest
    cases hrequest
  | sleep hphase | again hphase | wake hphase =>
    cases h with
    | lookup h | searching h | sending _ h => cases hphase.symm.trans h

/-- The thread can take its next step. -/
theorem Handles.moves (h : Handles r s n) (hfit : s.Fit remote) :
    ∃ a : ServerAct P, a.own ∧ (s.step true self remote a).isSome := by
  cases h with
  | lookup hphase =>
    refine ⟨.lookup, rfl, ?_⟩
    simp only [Server.step, hphase]
    cases s.clink with
    | none => rfl
    | some link => dsimp only; split <;> rfl
  | searching hphase =>
    refine ⟨.search, rfl, ?_⟩
    simp only [Server.step, hphase]
    cases linkSearch s.links r.tag <;> rfl
  | sending link hphase =>
    refine ⟨.send, rfl, ?_⟩
    simp only [Server.step, hphase]
    obtain ⟨chans, fd, heq, -⟩ | ⟨-, heq⟩ := hfit.sendStep (hfit.sending r link (.inl hphase)) r
    · rw [heq]; rfl
    · rw [heq]; rfl

/-- **What a step answers.** -/
theorem Fit.answers_eq (h : s.Fit remote) (ha : Moves true self remote s a t) :
    t.answers = s.answers ∨ ∃ r fd, t.answers = s.answers ++ [(r, fd)] ∧
      (r.condRecv → s.CondAnswer r fd) := by
  cases ha with
  | @send r link t hphase hsend =>
    obtain ⟨chans, fd, heq, -, -, hfd⟩ | ⟨-, heq⟩ := h.sendStep (h.sending r link hphase) r
    · obtain rfl := Option.some.inj (hsend.symm.trans heq)
      exact .inr ⟨r, fd, rfl, hfd⟩
    · obtain rfl := Option.some.inj (hsend.symm.trans heq)
      exact .inl rfl
  | _ => exact .inl rfl

/-- The answers written so far stay. -/
theorem Fit.answers_prefix (h : s.Fit remote) (ha : Moves true self remote s a t) :
    s.answers <+: t.answers := by
  obtain heq | ⟨r, fd, heq, -⟩ := h.answers_eq ha
  · exact heq ▸ List.prefix_refl _
  · exact heq ▸ List.prefix_append _ _

/-! ## Whole runs -/

/-- What every run keeps. -/
theorem inv_fit_of_run {acts : List (ServerAct P)} (hinv : s.Inv) (hfit : s.Fit remote)
    (hrun : run (fitStep self remote) s acts = some t) :
    t.Inv ∧ t.Fit remote ∧ s.chans.map Prod.fst <+: t.chans.map Prod.fst ∧
      s.answers <+: t.answers := by
  refine Reaches.invariant (P := fun t => t.Inv ∧ t.Fit remote ∧
    s.chans.map Prod.fst <+: t.chans.map Prod.fst ∧ s.answers <+: t.answers) ?_ ⟨acts, hrun⟩
    ⟨hinv, hfit, List.prefix_refl _, List.prefix_refl _⟩
  rintro u a v ⟨hinv, hfit, hchans, hanswers⟩ ha
  obtain ⟨hfits, ha⟩ := restrict_eq_some.mp ha
  have hmoves := moves_of_step ha
  exact ⟨hinv.moves hmoves, hfit.moves hinv hfits hmoves, hchans.trans (hfit.chans_prefix hmoves),
    hanswers.trans (hfit.answers_prefix hmoves)⟩

/-- **From the receipt to the answer**: within as many steps of the thread as it has to go. -/
theorem Handles.run {acts : List (ServerAct P)} (h : Handles r s n) (hcond : r.condRecv)
    (hinv : s.Inv) (hfit : s.Fit remote)
    (hrun : Machinery.run (fitStep self remote) s acts = some t) :
    (∃ fd, t.answers[s.answers.length]? = some (r, fd) ∧ t.CondAnswer r fd) ∨
    ∃ m, Handles r t m ∧ m + acts.countP ServerAct.own ≤ n := by
  induction acts generalizing s n with
  | nil =>
    obtain rfl := Option.some.inj hrun
    exact .inr ⟨n, h, le_rfl⟩
  | cons a acts ih =>
    rw [run_cons, Option.bind_eq_some_iff] at hrun
    obtain ⟨u, ha, hrest⟩ := hrun
    obtain ⟨hfits, ha⟩ := restrict_eq_some.mp ha
    have hmoves := moves_of_step ha
    have hinv' := hinv.moves hmoves
    have hfit' := hfit.moves hinv hfits hmoves
    obtain ⟨m, hu, hle, hanswers⟩ | ⟨-, -, fd, hanswers, hfd⟩ := h.step hcond hfit hmoves
    · obtain hdone | ⟨k, ht, hk⟩ := ih hu hinv' hfit' hrest
      · exact .inl (hanswers ▸ hdone)
      · refine .inr ⟨k, ht, ?_⟩
        rw [List.countP_cons]
        cases hown : a.own <;> simp [hown] at hle ⊢ <;> omega
    · obtain ⟨-, -, hchans, rest, hrest⟩ := inv_fit_of_run hinv' hfit' hrest
      refine .inl ⟨fd, ?_, (hfd.mono (hfit.chans_prefix hmoves)).mono hchans⟩
      rw [← hrest, hanswers]
      simp

/-! ## Runs in which every poll is timely -/

/-- **The invariant of the runs in which every poll is timely.** -/
structure Timely (remote : P) (s : Server P) : Prop where
  inv : s.Inv
  fit : s.Fit remote
  handles : ∀ r, s.phase.request? = some r → r.condRecv → ∃ n, Handles r s n
  answers : ∀ x ∈ s.answers, x.1.condRecv → s.CondAnswer x.1 x.2

omit [DecidableEq P] in
theorem timely_start (remote : P) : (start : Server P).Timely remote where
  inv := inv_start
  fit := fit_start remote
  handles := nofun
  answers := nofun

omit [DecidableEq P] in
@[simp] theorem request?_signal (phase : ServicePhase) :
    phase.signal.request? = phase.request? := by
  cases phase <;> rfl

/-- A request comes into hand when it is received. -/
theorem Fit.request_of_moves (h : s.Fit remote) (ha : Moves true self remote s a t)
    (ht : t.phase.request? = some r) : s.phase.request? = some r ∨
      (a = .recv ∧ s.requests.head? = some r ∧ t.phase = .lookup r ∧ t.links = s.links) := by
  cases ha with
  | sinkCreate | arrive | queue => exact .inl ht
  | linkInsert hc hmem => exact .inl ((request?_signal s.phase).symm.trans ht)
  | get hphase hreq hcode =>
    obtain rfl := Option.some.inj ht
    exact .inr ⟨rfl, by rw [hreq]; rfl, rfl, rfl⟩
  | hit hphase | miss hphase | found hphase | missed hphase | sleep hphase | again hphase
  | wake hphase =>
    obtain rfl := Option.some.inj ht
    exact .inl (by rw [hphase]; rfl)
  | @send r' link t hphase hsend =>
    obtain ⟨chans, fd, heq, -⟩ | ⟨-, heq⟩ := h.sendStep (h.sending r' link hphase) r'
    · obtain rfl := Option.some.inj (hsend.symm.trans heq)
      cases ht
    · obtain rfl := Option.some.inj (hsend.symm.trans heq)
      obtain rfl := Option.some.inj ht
      rcases hphase with hphase | hphase
      · exact .inl (by rw [hphase]; rfl)
      · exact .inl (by rw [hphase]; rfl)
  | kill | echo | destroyed => cases ht

/-- **A timely step.** -/
theorem Timely.step (h : s.Timely remote) (htimely : s.timely a)
    (ha : s.fitStep self remote a = some t) : t.Timely remote := by
  obtain ⟨hfits, ha⟩ := restrict_eq_some.mp ha
  have hmoves := moves_of_step ha
  have hchans := h.fit.chans_prefix hmoves
  refine ⟨h.inv.moves hmoves, h.fit.moves h.inv hfits hmoves, fun r hr hcond => ?_,
    fun x hx hcond => ?_⟩
  · obtain hold | ⟨rfl, hhead, hphase, hlinks⟩ := h.fit.request_of_moves hmoves hr
    · obtain ⟨n, hn⟩ := h.handles r hold hcond
      obtain ⟨m, hm, -⟩ | ⟨-, hidle, -⟩ := hn.step hcond h.fit hmoves
      · exact ⟨m, hm⟩
      · rw [hidle] at hr
        cases hr
    · refine ⟨3, .lookup hphase ?_⟩
      simpa [timely, hhead, hcond, hlinks] using htimely
  · obtain heq | ⟨r, fd, heq, hfd⟩ := h.fit.answers_eq hmoves
    · exact (h.answers x (heq ▸ hx) hcond).mono hchans
    · rcases List.mem_append.mp (heq ▸ hx) with hx | hx
      · exact (h.answers x hx hcond).mono hchans
      · obtain rfl := List.mem_singleton.mp hx
        exact (hfd hcond).mono hchans

theorem Timely.prompt (h : s.Timely remote) : s.Prompt self remote where
  awake := by
    rintro ⟨r, hcond, hphase | ⟨link, hphase⟩⟩
    · obtain ⟨n, hn⟩ := h.handles r (by rw [hphase]; rfl) hcond
      exact hn.not_condWaits ⟨r, hcond, .inl hphase⟩
    · obtain ⟨n, hn⟩ := h.handles r (by rw [hphase]; rfl) hcond
      exact hn.not_condWaits ⟨r, hcond, .inr ⟨link, hphase⟩⟩
  answers := h.answers
  moves r hr hcond := by
    obtain ⟨n, hn⟩ := h.handles r hr hcond
    exact hn.moves h.fit

/-- **A request received with its link in the hook is answered promptly.** -/
theorem pollsPromptly_of_found {rest : List ServiceRequest} (hinv : s.Inv) (hfit : s.Fit remote)
    (hphase : s.phase = .idle) (hreq : s.requests = r :: rest) (hcode : r.code = .condGet)
    (hfound : (linkSearch s.links r.tag).isSome) : s.PollsPromptly self remote r := by
  intro acts t hrun
  rw [run_cons, Option.bind_eq_some_iff] at hrun
  obtain ⟨u, ha, hrest⟩ := hrun
  obtain ⟨hfits, ha⟩ := restrict_eq_some.mp ha
  obtain rfl : u = { s with requests := rest, phase := .lookup r } := by
    simp only [Server.step, hphase, hreq, hcode, Option.some.injEq] at ha
    exact ha.symm
  have hmoves := moves_of_step ha
  have hcond : r.condRecv = true := by simp [ServiceRequest.condRecv, hcode]
  have hhandles : Handles r { s with requests := rest, phase := .lookup r } 3 := .lookup rfl hfound
  obtain hdone | ⟨m, hm, hle⟩ :=
    hhandles.run hcond (hinv.moves hmoves) (hfit.moves hinv hfits hmoves)
    hrest
  · exact .inl hdone
  · obtain ⟨-, hfit', -⟩ := inv_fit_of_run (hinv.moves hmoves) (hfit.moves hinv hfits hmoves) hrest
    refine .inr ⟨hm.not_condWaits, ?_, hm.moves hfit'⟩
    cases hm <;> omega

/-- **A request received without its link in the hook can be put to sleep.** -/
theorem condWaits_of_missing (self remote : P) {rest : List ServiceRequest} (hinv : s.Inv)
    (hphase : s.phase = .idle) (hreq : s.requests = r :: rest) (hcode : r.code = .condGet)
    (hmiss : linkSearch s.links r.tag = none) : ∃ t, t.CondWaits ∧ t.answers = s.answers ∧
      run (fitStep self remote) s [.recv, .lookup, .search, .recheck] = some t := by
  have hcond : r.condRecv = true := by simp [ServiceRequest.condRecv, hcode]
  refine ⟨{ s with requests := rest, phase := .asleep r }, ⟨r, hcond, .inl rfl⟩, rfl, ?_⟩
  have hrecv : s.step true self remote .recv =
      some { s with requests := rest, phase := .lookup r } := by
    simp only [Server.step, hphase, hreq, hcode]
  have hlookup : ({ s with requests := rest, phase := .lookup r } : Server P).step true self remote
      .lookup = some { s with requests := rest, phase := .searching r } := by
    refine step_lookup_miss rfl fun link hlink htag => ?_
    obtain ⟨hfind, -⟩ := hinv.search_of_hit hlink htag
    rw [hmiss] at hfind
    cases hfind
  simp only [run_cons, run_nil, fitStep, restrict, ServerAct.fits, if_true, hrecv, hlookup,
    Option.bind_some]
  simp [Server.step, hmiss]

end Links

end Server

/-! ## When a conditional get is prompt -/

/-- **A conditional get is prompt exactly when its link is there**, where blocks have room for their
units.  In a run in which every COND_GET is received with a link of its tag in the hook, the thread
is never in a condition wait for one, and every one answered has the flag 0, or the flag 1 and the
data.  And whatever state a thread receives a COND_GET in, its poll is prompt, whatever follows, if
and only if the hook has its link then.  No queue, of whatever kind, holds it up. -/
theorem cond_get_prompt_iff [DecidableEq P] (self remote : P) :
    (∀ acts s, run (restrict (fun s a => s.timely a) (Server.fitStep self remote)) .start acts =
      some s → s.Prompt self remote) ∧
    (∀ s r rest, Reaches (Server.fitStep self remote) .start s → s.phase = .idle →
      s.requests = r :: rest → r.code = .condGet →
      (s.PollsPromptly self remote r ↔ (linkSearch s.links r.tag).isSome)) ∧
    ∀ (q : Nmc121) (var : ℕ), var + q.size ≤ q.mem.length →
      internalNmc121Send q [] var true = some (.refused (intBytes 0)) ∨
      ∃ q' u, u.length = q.size ∧
        internalNmc121Send q [] var true = some (.sent q' (intBytes 1 ++ u)) := by
  refine ⟨fun acts s hrun => ?_, fun s r rest hs hphase hreq hcode => ?_,
    fun q var => internalNmc121Send_cond⟩
  · have htimely : s.Timely remote := Reaches.invariant
      (fun s a t hs ha => hs.step (restrict_eq_some.mp ha).1 (restrict_eq_some.mp ha).2)
      ⟨acts, hrun⟩ (Server.timely_start remote)
    exact htimely.prompt
  · obtain ⟨acts, hrun⟩ := hs
    obtain ⟨hinv, hfit, -⟩ := Server.inv_fit_of_run Server.inv_start (Server.fit_start remote) hrun
    refine ⟨fun hprompt => ?_, Server.pollsPromptly_of_found hinv hfit hphase hreq hcode⟩
    by_contra hmiss
    obtain ⟨t, hwaits, hanswers, ht⟩ := Server.condWaits_of_missing self remote hinv hphase hreq
      hcode (Option.not_isSome_iff_eq_none.mp hmiss)
    obtain ⟨fd, hfd, -⟩ | ⟨hawake, -⟩ := hprompt _ t ht
    · rw [hanswers, List.getElem?_eq_none le_rfl] at hfd
      cases hfd
    · exact hawake hwaits

/-- A poll of a pipe from which one unit was put: it was made before the poll was received. -/
def pollActs : List (ServerAct ℕ) :=
  [.sinkCreate ⟨fun _ _ _ _ => 0, fun _ _ _ => 0⟩ ⟨.pipe, [1], .char, 2⟩, .linkInsert 0,
    .queue 0 (.put 0 [7]), .arrive ⟨.condGet, 0, 1⟩]

theorem cond_get_prompt_iff_pipe : ∃ s : Server ℕ,
    run (Server.step true 0 1) .start pollActs = some s ∧
      s.PollsPromptly 0 1 ⟨.condGet, 0, 1⟩ ∧ s.Prompt 0 1 := by
  have hrun : ∃ s : Server ℕ, run (restrict (fun s a => s.timely a) (Server.fitStep 0 1)) .start
      pollActs = some s ∧ s.phase = .idle ∧ s.requests = [⟨.condGet, 0, 1⟩] ∧
      (linkSearch s.links 0).isSome := ⟨_, rfl, rfl, rfl, rfl⟩
  obtain ⟨s, hs, hphase, hreq, hfound⟩ := hrun
  obtain ⟨hruns, hpolls, -⟩ := cond_get_prompt_iff 0 1
  exact ⟨s, run_of_restrict (run_of_restrict hs),
    (hpolls s _ _ ⟨_, run_of_restrict hs⟩ hphase hreq rfl).mpr hfound, hruns _ _ hs⟩

/-- **A conditional get can wait**: for the sink its producer has not made yet. -/
theorem cond_get_waits :
    ¬ ∀ s : Server ℕ, Reaches (Server.step true 0 1) .start s → ¬ s.CondWaits := by
  intro hall
  have hrun : run (Server.step true 0 1) .start
      [.arrive ⟨.condGet, 0, 1⟩, .recv, .lookup, .search, .recheck] = some _ := rfl
  exact hall _ ⟨_, hrun⟩ ⟨⟨.condGet, 0, 1⟩, rfl, .inl rfl⟩

end Libdsys
