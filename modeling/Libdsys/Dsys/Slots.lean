import Libdsys.Dsys.Streams

/-!
# Dsys/Slots — the no-copy channels of the system

A channel that copies nothing is `Queue/NoCopy` among the threads of the system: its producer is
the computation thread of its process, and every service thread sends from it.  So whatever holds
of the queue in every order of its lock sections holds of the channel in every run.

* `Dealt` — the system, with the units that were committed and sent written down.
* `Dealt.exists_mirror` — a run of the system takes each such channel through a run of its queue.
* `farm_deals_once` — a farm deals out what was committed, every unit to one worker.
* `slots_deliver_each` — the other roles give all of it to each of their consumers.
-/

open Machinery

namespace Libdsys

variable {P σ : Type}

/-! ## The system with its units -/

/-- The unit that the producer's pointer of a no-copy queue stands at. -/
def Queue.unit? : Queue P → Option (List Byte)
  | .nmc12m s => readAt s.1.mem s.1.vptr.var s.1.size
  | .farmn q => readAt q.mem q.pptr.var q.size
  | _ => none

/-- The system with its history, and that of its units. -/
structure Dealt (P σ : Type) where
  traced : Traced P σ
  /-- The units that were committed on each channel. -/
  committed : P → ℕ → List (List Byte)
  /-- The data that was sent from each channel, with the process and the tag it was sent to. -/
  dealt : P → ℕ → List ((P × ℕ) × List Byte)

namespace Dealt

def start (conf : Conf P) (fresh : Fresh P) (init : P → σ) : Dealt P σ :=
  ⟨.start conf fresh init, fun _ _ => [], fun _ _ => []⟩

variable [DecidableEq P]

/-- The units committed after a step of the computation thread of `q`: one more where it enters a
no-copy put. -/
def noteComp (t : Dealt P σ) (q : P) : P → ℕ → List (List Byte) :=
  match (t.traced.sys.comp q).micro with
  | some (.commit c _ _) =>
    Function.update t.committed q (Function.update (t.committed q) c
      (t.committed q c ++ ((t.traced.sys.queues q)[c]?.bind Queue.unit?).toList))
  | _ => t.committed

/-- The data sent after an answer of process `p` to `q`. -/
def noteServe (conf : Conf P) (t : Dealt P σ) (p q : P) : P → ℕ → List ((P × ℕ) × List Byte) :=
  match t.traced.sys.serving conf p q with
  | some (r, link, _, .sent _ fd) =>
    Function.update t.dealt p (Function.update (t.dealt p) link.channel
      (t.dealt p link.channel ++ [((q, r.tag), fd.drop (preamble r.condRecv).length)]))
  | _ => t.dealt

/-- One step, written down. -/
def step (A : Arith) (conf : Conf P) (prog : P → Program σ) (t : Dealt P σ) (a : DsysAct P) :
    Option (Dealt P σ) :=
  (t.traced.step A conf prog a).map fun traced =>
    match a with
    | .comp q => { t with traced, committed := t.noteComp q }
    | .serve p q => { t with traced, dealt := t.noteServe conf p q }
    | _ => { t with traced }

variable {A : Arith} {conf : Conf P} {prog : P → Program σ} {t t' : Dealt P σ}

theorem traced_step {a : DsysAct P} (hstep : t.step A conf prog a = some t') :
    t.traced.step A conf prog a = some t'.traced := by
  obtain ⟨traced, htraced, rfl⟩ := Option.map_eq_some_iff.mp hstep
  rw [htraced]
  cases a <;> rfl

/-- **Writing down changes nothing.** -/
theorem reaches_traced_iff {fresh : Fresh P} {init : P → σ} {s : Traced P σ} :
    Reaches (Traced.step A conf prog) (Traced.start conf fresh init) s ↔
      ∃ t, Reaches (step A conf prog) (start conf fresh init) t ∧ t.traced = s := by
  constructor
  · refine Reaches.follows (x := start conf fresh init) traced fun t a s' ha => ?_
    obtain ⟨t', ht'⟩ : ∃ t', t.step A conf prog a = some t' := by
      rw [step, ha]
      exact ⟨_, rfl⟩
    exact ⟨t', ht', Option.some.inj ((traced_step ht').symm.trans ha)⟩
  · rintro ⟨t, ht, rfl⟩
    exact ht.invariant (P := fun t => Reaches (Traced.step A conf prog)
      (Traced.start conf fresh init) t.traced) (fun _ _ _ h ha => h.tail (traced_step ha))
      (Reaches.refl _)

/-- Data sent from a channel is written down there. -/
theorem noteServe_of_sent (t : Dealt P σ) {p' q' : P} {r : GetRequest} {link : Link}
    {queue queue' : Queue P} {fd : List Byte}
    (hserve : t.traced.sys.serving conf p' q' = some (r, link, queue, .sent queue' fd)) (p : P)
    (c : ℕ) : t.noteServe conf p' q' p c = t.dealt p c ++
      if p' = p ∧ link.channel = c then [((q', r.tag), fd.drop (preamble r.condRecv).length)]
      else [] := by
  simp only [noteServe, hserve]
  by_cases hp : p' = p
  · subst hp
    by_cases hc : link.channel = c
    · subst hc
      simp
    · simp [hc, Function.update_of_ne (Ne.symm hc)]
  · simp [hp, Function.update_of_ne (Ne.symm hp)]

/-- The data that process `q` was sent from channel `c` of `p`, one reply after the other. -/
def grants (t : Dealt P σ) (p : P) (c : ℕ) (q : P) : List (List Byte) :=
  ((t.traced.granted q).filter fun g => g.sender = p ∧ g.chan = c).map Grant.data

/-- **What was sent from a channel is what the others were sent from it.** -/
theorem grants_eq {fresh : Fresh P} {init : P → σ}
    (ht : Reaches (step A conf prog) (start conf fresh init) t) (p : P) (c : ℕ) (q : P) :
    t.grants p c q = ((t.dealt p c).filter fun x => x.1.1 = q).map Prod.snd := by
  refine ht.invariant (P := fun t => t.grants p c q =
    ((t.dealt p c).filter fun x => x.1.1 = q).map Prod.snd) ?_ rfl
  intro t a t' h hstep
  obtain ⟨traced, htraced, rfl⟩ := Option.map_eq_some_iff.mp hstep
  obtain ⟨sys, -, rfl⟩ := Option.map_eq_some_iff.mp htraced
  cases a with
  | comp q' =>
    have hgranted : (t.traced.noteComp prog q' sys).granted = t.traced.granted := by
      unfold Traced.noteComp
      split
      · split <;> rfl
      all_goals rfl
    rw [grants] at h ⊢
    rw [hgranted]
    exact h
  | serve p' q' =>
    cases hserve : t.traced.sys.serving conf p' q' with
    | none =>
      simp only [noteServe, Traced.noteServe, hserve, grants] at h ⊢
      exact h
    | some x =>
      obtain ⟨r, link, queue, o⟩ := x
      cases o with
      | sent queue' fd =>
        simp only [noteServe_of_sent t hserve, Traced.noteServe, hserve, grants,
          Bool.decide_and] at h ⊢
        by_cases hq : q = q'
        · subst hq
          by_cases hpc : p' = p ∧ link.channel = c <;> simp [h, hpc]
        · by_cases hpc : p' = p ∧ link.channel = c <;> simp [h, hpc, hq, Ne.symm hq]
      | refused | wait =>
        simp only [noteServe, Traced.noteServe, hserve, grants] at h ⊢
        exact h
  | recv | deliverRequest | deliverData => exact h

end Dealt

/-! ## Calls that enter a put -/

/-- **A call that is not inside a put on channel `c`**, and whose puts there count `n` readers. -/
def Micro.Enters {α : Type} (c n : ℕ) : Micro P α → Prop
  | .done _ => True
  | .fault => True
  | .put _ _ _ next => next.Enters c n
  | .commit c' count next => (c' = c → count = n) ∧ next.Enters c n
  | .retry c' _ next => c' ≠ c ∧ next.Enters c n
  | .fill _ _ _ next => next.Enters c n
  | .request _ _ next => next.Enters c n
  | .read _ _ next => ∀ bs, (next bs).Enters c n
  | .poll _ _ _ _ next => ∀ bs, (next bs).Enters c n

/-- The readers a put on a no-copy channel counts. -/
def SinkChan.count (ch : SinkChan P) : ℕ :=
  match ch.role with
  | .pipen => 1
  | _ => ch.plist.length

section Enters

variable {α β : Type} {c n : ℕ}

theorem enters_bind {m : Micro P α} {f : α → Micro P β} (hm : m.Enters c n)
    (hf : ∀ a, (f a).Enters c n) : (m.bind f).Enters c n := by
  induction m with
  | done a => exact hf a
  | fault => trivial
  | put _ _ _ _ ih | fill _ _ _ _ ih | request _ _ _ ih => exact ih hm
  | commit _ _ _ ih | retry _ _ _ ih => exact ⟨hm.1, ih hm.2⟩
  | read _ _ _ ih | poll _ _ _ _ _ ih => exact fun bs => ih bs (hm bs)

theorem Micro.Reads.enters {m : Micro P α} {links : List (P × ℕ)} (hm : m.Reads links) :
    m.Enters c n := by
  induction m with
  | done | fault => trivial
  | put | commit | retry | fill | poll => exact hm.elim
  | request _ _ _ ih => exact ih hm.2.2
  | read _ _ _ ih => exact fun bs => ih bs (hm bs)

theorem enters_ofOption (o : Option α) : (Micro.ofOption o : Micro P α).Enters c n := by
  cases o <;> trivial

theorem enters_r {A : Arith} {role : Role} {r} (hr : role.r (P := P) A = some r) (src : Src P)
    (loc : List Byte) (du : ℕ) : (r src loc du).Enters c n := by
  by_cases hany : role = .collectAny
  · subst hany
    obtain rfl := Option.some.inj hr
    exact fun out => enters_bind (enters_ofOption _) fun _ => trivial
  · exact (reads_r hr hany).enters

variable [DecidableEq P]

theorem enters_p {role : Role} {ch : SinkChan P} (hrole : ch.role = role) {c' du : ℕ}
    {loc : List Byte} (hn : c' = c → ch.count = n) : (role.p ch c' loc du).Enters c n := by
  subst hrole
  obtain ⟨role, plist, dtype, dunits⟩ := ch
  have hreplicate (plist' rest : List P) (sz : ℕ) :
      (replicateEach plist' c' loc sz rest : Micro P ℤ).Enters c n := by
    induction rest with
    | nil => trivial
    | cons q rest ih => exact enters_bind (enters_ofOption _) fun _ => ih
  have hspread (rest : List P) (sz : ℕ) (i off : ℕ) :
      (spreadEach c' loc sz rest i off : Micro P ℤ).Enters c n := by
    induction rest generalizing i off with
    | nil => trivial
    | cons q rest ih => exact enters_bind (enters_ofOption _) fun _ => ih _ _
  cases role with
  | pipe => exact enters_bind (enters_ofOption _) fun _ => trivial
  | replicate => exact hreplicate _ _ _
  | spread => exact hspread _ _ _ _
  | pipen | replicaten | farm | farmn => exact ⟨hn, trivial⟩
  | _ => trivial

/-- **Every call counts the readers its channel has.** -/
theorem enters_bcCall {A : Arith} {chans : Chans P} {call : Call} {ch : SinkChan P}
    (hch : chans.sinks[c]? = some ch) : (bcCall A chans call).Enters c ch.count := by
  have hcall := callIs_bcCall A chans call
  generalize bcCall A chans call = micro at hcall ⊢
  cases hcall with
  | refused | null | fill => trivial
  | @put _ c' ch' loc du out hch' =>
    refine enters_bind (enters_p rfl fun hc => ?_) fun _ => trivial
    subst hc
    rw [Option.some.inj (hch'.symm.trans hch)]
  | get _ _ hr => exact enters_r hr _ _ _

theorem Dsys.OnQueue.enters {queue queue' : Queue P} {micro next : Micro P α} {c' : ℕ}
    (h : Dsys.OnQueue queue micro c' queue' next) (hm : micro.Enters c n) (hc : c' ≠ c) :
    next.Enters c n := by
  cases h with
  | put | fill => exact hm
  | commit | retry => exact hm.2
  | commitWait => exact ⟨hc, hm.2⟩
  | retryWait => exact hm

end Enters

/-! ## A queue of the system as one of `Queue/NoCopy` -/

variable {τ T : Type}

/-- **How a queue of the system is a no-copy queue**: thread `k` is the one that serves `link k`. -/
structure Queue.Shows [DecidableEq P] (ops : SlotOps τ T) (link : T → P × ℕ)
    (View : Queue P → τ → Prop) : Prop where
  put : ∀ {queue s i bs}, View queue s → queue.put i bs = none
  unit : ∀ {queue s}, View queue s → queue.unit? = ops.slotUnit s
  fill : ∀ {queue s off bs queue'}, View queue s → queue.fill off bs = some queue' →
    ∃ s', ops.fill s off bs = some s' ∧ View queue' s'
  enter : ∀ {queue s n queue' i}, View queue s → queue.putEnter n = some (queue', i) →
    ∃ s', ops.putEnter s n = some (s', i) ∧ View queue' s'
  passes : ∀ {queue s i queue'}, View queue s → queue.putCheck i = some (some queue') →
    ∃ s', ops.putCheck s i = some (some s') ∧ View queue' s'
  waits : ∀ {queue s i}, View queue s → queue.putCheck i = some none →
    ops.putCheck s i = some none
  send : ∀ {queue s k bytes condRecv queue' fd}, View queue s →
    queue.send (link k).1 (link k).2 bytes condRecv = some (.sent queue' fd) →
    ∃ s', ops.send s k [] condRecv = some (.sent s' fd) ∧ View queue' s'

/-- A farm queue, whoever is served. -/
theorem Queue.shows_farmn [DecidableEq P] :
    Queue.Shows (farmnOps (P × ℕ)) id fun (queue : Queue P) q => queue = .farmn q where
  put h := by
    rw [h]
    rfl
  unit h := by
    rw [h]
    rfl
  fill h hfill := by
    subst h
    obtain ⟨q', hq', rfl⟩ := Option.map_eq_some_iff.mp hfill
    exact ⟨q', hq', rfl⟩
  enter h henter := by
    subst h
    obtain ⟨⟨q', i'⟩, hq', heq⟩ := Option.map_eq_some_iff.mp henter
    obtain ⟨rfl, rfl⟩ := Prod.mk.inj heq
    exact ⟨q', hq', rfl⟩
  passes h hcheck := by
    subst h
    obtain ⟨o, ho, heq⟩ := Option.map_eq_some_iff.mp hcheck
    obtain ⟨q', rfl, rfl⟩ := Option.map_eq_some_iff.mp heq
    exact ⟨q', ho, rfl⟩
  waits h hcheck := by
    subst h
    obtain ⟨o, ho, heq⟩ := Option.map_eq_some_iff.mp hcheck
    obtain rfl := Option.map_eq_none_iff.mp heq
    exact ho
  send h hsend := by
    subst h
    obtain ⟨o, ho, heq⟩ := Option.map_eq_some_iff.mp hsend
    cases o with
    | sent q' fd =>
      obtain ⟨rfl, rfl⟩ := SendOutcome.sent.inj heq
      exact ⟨q', ho, rfl⟩
    | refused | wait => cases heq

/-- A one-to-many queue, whose links are those of `link`. -/
theorem Queue.shows_nmc12m [DecidableEq P] [DecidableEq T] {link : T → P × ℕ}
    (hlink : Function.Injective link) : Queue.Shows (nmc12mOps T) link
      fun (queue : Queue P) s => ∃ vptrs, queue = .nmc12m (s.1, vptrs) ∧ s.2 = vptrs ∘ link where
  put h := by
    obtain ⟨vptrs, rfl, -⟩ := h
    rfl
  unit h := by
    obtain ⟨vptrs, rfl, -⟩ := h
    rfl
  fill h hfill := by
    obtain ⟨vptrs, rfl, hvptrs⟩ := h
    simp only [Queue.fill, nmc12mOps, Option.map_map, Option.map_eq_some_iff] at hfill
    obtain ⟨q', hq', rfl⟩ := hfill
    exact ⟨(q', _), Option.map_eq_some_iff.mpr ⟨q', hq', rfl⟩, vptrs, rfl, hvptrs⟩
  enter h henter := by
    obtain ⟨vptrs, rfl, hvptrs⟩ := h
    simp only [Queue.putEnter, nmc12mOps, Option.map_map, Option.map_eq_some_iff] at henter
    obtain ⟨⟨q', i'⟩, hq', heq⟩ := henter
    obtain ⟨rfl, rfl⟩ := Prod.mk.inj heq
    exact ⟨(q', _), Option.map_eq_some_iff.mpr ⟨(q', i'), hq', rfl⟩, vptrs, rfl, hvptrs⟩
  passes h hcheck := by
    obtain ⟨vptrs, rfl, hvptrs⟩ := h
    simp only [Queue.putCheck, nmc12mOps, Option.map_map, Option.map_eq_some_iff] at hcheck
    obtain ⟨o, ho, heq⟩ := hcheck
    cases o with
    | none => cases heq
    | some q' =>
      obtain rfl := Option.some.inj heq
      exact ⟨(q', _), Option.map_eq_some_iff.mpr ⟨some q', ho, rfl⟩, vptrs, rfl, hvptrs⟩
  waits h hcheck := by
    obtain ⟨vptrs, rfl, hvptrs⟩ := h
    simp only [Queue.putCheck, nmc12mOps, Option.map_map, Option.map_eq_some_iff] at hcheck
    obtain ⟨o, ho, heq⟩ := hcheck
    cases o with
    | none => exact Option.map_eq_some_iff.mpr ⟨none, ho, rfl⟩
    | some q' => cases heq
  send {queue s k bytes condRecv queue' fd} h hsend := by
    obtain ⟨vptrs, rfl, hvptrs⟩ := h
    obtain ⟨o, ho, heq⟩ := Option.map_eq_some_iff.mp hsend
    obtain ⟨o', ho', rfl⟩ := Option.map_eq_some_iff.mp ho
    have hk : s.2 k = vptrs (link k) := congrFun hvptrs k
    cases o' with
    | sent x fd' =>
      obtain ⟨rfl, rfl⟩ := SendOutcome.sent.inj heq
      refine ⟨(x.1, Function.update s.2 k x.2), Option.map_eq_some_iff.mpr ⟨.sent x fd', ?_, rfl⟩,
        _, rfl, ?_⟩
      · rw [hk]
        exact ho'
      · change Function.update s.2 k x.2 = _
        rw [hvptrs]
        exact (Function.update_comp_eq_of_injective vptrs hlink k x.2).symm
    | refused | wait => cases heq

/-! ## The run of a queue in a run of the system -/

/-- What a send from a queue writes. -/
theorem Refines.exists_wrote {ι : Type} [DecidableEq ι] {ops : SlotOps τ T} {c du : ℕ}
    {cur : T → ι} {Rep : τ → SlotLog (List Byte) ι → Prop} (R : Refines ops c du cur Rep) {q q' : τ}
    {l : SlotLog (List Byte) ι} (hrep : Rep q l) {k : T} {condRecv : Bool} {fd : List Byte}
    (h : ops.send q k [] condRecv = some (.sent q' fd)) : ∃ u, fd = preamble condRecv ++ u := by
  obtain hready | hnot := lt_or_ge (l.read (cur k)) l.released
  · obtain ⟨_, heq, -⟩ := R.send_ready k [] condRecv hrep
      (hready.trans_le SlotLog.released_le) hready
    obtain ⟨-, rfl⟩ := SendOutcome.sent.inj (Option.some.inj (h.symm.trans heq))
    exact ⟨_, rfl⟩
  · cases condRecv with
    | false => exact nomatch h.symm.trans (R.send_wait k [] hrep hnot)
    | true => exact nomatch h.symm.trans (R.send_refused k [] hrep hnot)

/-- What was sent over a link, where its process has no other. -/
theorem NoCopy.units_link [DecidableEq P] [DecidableEq T] {link : T → P × ℕ}
    (hlink : ∀ j k, (link j).1 = (link k).1 → j = k) (s : NoCopy τ T) (k : T) :
    ((s.sentUnits.map (Prod.map link id)).filter fun x => x.1.1 = (link k).1).map Prod.snd =
      s.units id k := by
  rw [NoCopy.units, NoCopy.sentUnits]
  induction s.replies with
  | nil => rfl
  | cons r rs ih =>
    cases hu : r.unit? with
    | none => simpa [hu] using ih
    | some u =>
      by_cases hk : r.thread = k
      · subst hk
        simpa [hu] using ih
      · have hne : (link r.thread).1 ≠ (link k).1 := fun h => hk (hlink _ _ h)
        simpa [hu, hk, hne] using ih

namespace Dealt

/-- Where the producer of a channel stands, as its computation thread does. -/
def Producer (micro : Option (Micro P (ℤ × List Byte))) (c n : ℕ) (producer : Thread ℕ) : Prop :=
  (producer = .idle ∧ ∀ m, micro = some m → m.Enters c n) ∨
    ∃ i next, micro = some (.retry c i next) ∧ producer.call? = some i ∧ next.Enters c n

/-- **A no-copy queue and its threads as they stand in the system.** -/
structure Mirror (View : Queue P → τ → Prop) (link : T → P × ℕ) (p : P) (c n : ℕ) (t : Dealt P σ)
    (s : NoCopy τ T) : Prop where
  queue : ∃ queue, (t.traced.sys.queues p)[c]? = some queue ∧ View queue s.store
  producer : Producer (t.traced.sys.comp p).micro c n s.producer
  consumer : ∀ k, s.consumer k = .idle
  committed : s.committed = t.committed p c
  sent : s.sentUnits.map (Prod.map link id) = t.dealt p c

/-- Only the thread of a process commits on its channels. -/
theorem noteComp_of_ne [DecidableEq P] (t : Dealt P σ) {p q : P} (hp : p ≠ q) :
    t.noteComp q p = t.committed p := by
  cases hm : (t.traced.sys.comp q).micro with
  | none => simp only [noteComp, hm]
  | some m => cases m <;> simp [noteComp, hm, hp]

section Mirror

variable {View : Queue P → τ → Prop} {link : T → P × ℕ} {p : P} {c n : ℕ} {t t' : Dealt P σ}
  {s : NoCopy τ T}

/-- Nothing happens to the channel, and its producer is inside no put. -/
theorem Mirror.elsewhere (h : Mirror View link p c n t s)
    (hqueue : (t'.traced.sys.queues p)[c]? = (t.traced.sys.queues p)[c]?)
    (hproducer : Producer (t'.traced.sys.comp p).micro c n s.producer)
    (hcommitted : t'.committed p c = t.committed p c) (hdealt : t'.dealt p c = t.dealt p c) :
    Mirror View link p c n t' s where
  queue := by
    rw [hqueue]
    exact h.queue
  producer := hproducer
  consumer := h.consumer
  committed := h.committed.trans hcommitted.symm
  sent := h.sent.trans hdealt.symm

/-- A thread that waits in no put on the channel is inside none. -/
theorem Mirror.idle (h : Mirror View link p c n t s) {m : Micro P (ℤ × List Byte)}
    (hm : (t.traced.sys.comp p).micro = some m) (hretry : ∀ i next, m ≠ .retry c i next) :
    s.producer = .idle ∧ m.Enters c n := by
  obtain ⟨hidle, henters⟩ | ⟨i, next, heq, -⟩ := h.producer
  · exact ⟨hidle, henters m hm⟩
  · exact absurd (Option.some.inj (hm.symm.trans heq)) (hretry i next)

variable [DecidableEq P] [DecidableEq T] {ops : SlotOps τ T} {ι : Type} [DecidableEq ι] {du : ℕ}
  {cur : T → ι} {Rep : τ → SlotLog (List Byte) ι → Prop} {l : SlotLog (List Byte) ι}

omit [DecidableEq T] in
/-- A put on the channel finds its next slot free. -/
theorem Mirror.passes (hV : Queue.Shows ops link View) (hidle : ∀ k, s.consumer k = .idle)
    (hcommitted : s.committed = t.committed p c)
    (hsent : s.sentUnits.map (Prod.map link id) = t.dealt p c) {queue queue' : Queue P}
    (hview : View queue s.store) {i : ℕ} {next : Micro P (ℤ × List Byte)}
    (hnext : next.Enters c n) (hcheck : queue.putCheck i = some (some queue'))
    (hqueue : (t.traced.sys.queues p)[c]? = some queue')
    (hm : (t.traced.sys.comp p).micro = some next) :
    ∃ s', s.check ops i = some s' ∧ Mirror View link p c n t s' := by
  have hwake (k : T) : (s.consumer k).wake = .idle := by rw [hidle k]; rfl
  obtain ⟨q', hq', hview'⟩ := hV.passes hview hcheck
  refine ⟨s.passed q', by rw [NoCopy.check, hq']; rfl, ⟨queue', hqueue, hview'⟩, .inl ⟨rfl, ?_⟩,
    hwake, hcommitted, hsent⟩
  intro m hm'
  exact Option.some.inj (hm.symm.trans hm') ▸ hnext

omit [DecidableEq T] in
/-- A put on the channel has to wait. -/
theorem Mirror.waits (hV : Queue.Shows ops link View) (hidle : ∀ k, s.consumer k = .idle)
    (hcommitted : s.committed = t.committed p c)
    (hsent : s.sentUnits.map (Prod.map link id) = t.dealt p c) {queue : Queue P}
    (hview : View queue s.store) {i : ℕ} {next : Micro P (ℤ × List Byte)}
    (hnext : next.Enters c n) (hcheck : queue.putCheck i = some none)
    (hqueue : (t.traced.sys.queues p)[c]? = some queue)
    (hm : (t.traced.sys.comp p).micro = some (.retry c i next)) :
    ∃ s', s.check ops i = some s' ∧ Mirror View link p c n t s' := by
  have hwake (k : T) : (s.consumer k).wake = .idle := by rw [hidle k]; rfl
  exact ⟨s.waits i, by rw [NoCopy.check, hV.waits hview hcheck]; rfl, ⟨queue, hqueue, hview⟩,
    .inr ⟨i, next, hm, rfl, hnext⟩, hwake, hcommitted, hsent⟩

/-- Entering a put on the channel commits the unit in its slot. -/
theorem Mirror.commits (h : Mirror View link p c n t s) (hV : Queue.Shows ops link View)
    (R : Refines ops n du cur Rep) (hinv : s.Inv du cur Rep l) {queue queue' : Queue P}
    {count i : ℕ} {next : Micro P (ℤ × List Byte)}
    (hm : (t.traced.sys.comp p).micro = some (.commit c count next))
    (hq : (t.traced.sys.queues p)[c]? = some queue) (hview : View queue s.store)
    (henter : queue.putEnter count = some (queue', i)) :
    next.Enters c n ∧ ∃ u store, View queue' store ∧ s.committed ++ [u] = t.noteComp p p c ∧
      ∀ s', ({ s with store, committed := s.committed ++ [u] } : NoCopy τ T).check ops i = some s' →
        s.step ops n .commit = some s' := by
  obtain ⟨hidle, hcount, hnext⟩ := h.idle hm (by rintro _ _ ⟨⟩)
  obtain rfl := hcount rfl
  obtain ⟨store, hstore, hview'⟩ := hV.enter hview henter
  obtain ⟨u, _, hu, -⟩ := R.enter hinv.rep (by rw [hinv.held, hidle]; rfl)
  refine ⟨hnext, u, store, hview', ?_, fun s' hcheck => ?_⟩
  · simp only [noteComp, hm, h.committed, hq, Function.update_self, Option.bind_some,
      hV.unit hview, hu, Option.toList_some]
  · simp only [NoCopy.step, hidle, hu, hstore, Option.bind_eq_bind, Option.bind_some]
    rw [← hidle]
    exact hcheck

omit [DecidableEq P] in
/-- A put on the channel that was woken, or that wakes on its own, tests again. -/
theorem Mirror.retries (h : Mirror View link p c n t s) {i : ℕ} {next : Micro P (ℤ × List Byte)}
    (hm : (t.traced.sys.comp p).micro = some (.retry c i next)) :
    next.Enters c n ∧ Reaches (NoCopy.step ops n) s { s with producer := .woken i } := by
  obtain ⟨-, henters⟩ | ⟨i', next', heq, hcall, hnext⟩ := h.producer
  · exact absurd rfl (henters _ hm).1
  · obtain ⟨-, rfl, rfl⟩ := Micro.retry.inj (Option.some.inj (hm.symm.trans heq))
    refine ⟨hnext, ?_⟩
    cases hprod : s.producer with
    | idle => simp [hprod] at hcall
    | asleep j =>
      obtain rfl : j = i := by simpa [hprod] using hcall
      exact .single (a := .spuriousPut) (by rw [NoCopy.step, hprod])
    | woken j =>
      obtain rfl : j = i := by simpa [hprod] using hcall
      rw [← hprod]
      exact .refl s

/-- **A lock section of the producer in the system is one of its queue.** -/
theorem Mirror.onQueue (h : Mirror View link p c n t s) (hV : Queue.Shows ops link View)
    (R : Refines ops n du cur Rep) (hinv : s.Inv du cur Rep l)
    {queue queue' : Queue P} {micro next : Micro P (ℤ × List Byte)}
    (hm : (t.traced.sys.comp p).micro = some micro) (hq : (t.traced.sys.queues p)[c]? = some queue)
    (hon : Dsys.OnQueue queue micro c queue' next)
    (hq' : (t'.traced.sys.queues p)[c]? = some queue')
    (hm' : (t'.traced.sys.comp p).micro = some next) (hcommitted : t'.committed = t.noteComp p)
    (hdealt : t'.dealt = t.dealt) :
    ∃ s', Reaches (NoCopy.step ops n) s s' ∧ Mirror View link p c n t' s' := by
  obtain ⟨queue₀, hq₀, hview⟩ := h.queue
  obtain rfl := Option.some.inj (hq.symm.trans hq₀)
  -- Only entering a put commits.
  have hsame (hnot : ∀ count next, micro ≠ .commit c count next) :
      s.committed = t'.committed p c := by
    rw [hcommitted, noteComp, hm, h.committed]
    cases hon with
    | commit | commitWait => exact absurd rfl (hnot _ _)
    | _ => rfl
  have hsent : s.sentUnits.map (Prod.map link id) = t'.dealt p c := by rw [hdealt, h.sent]
  cases hon with
  | put hput =>
    rw [hV.put hview] at hput
    cases hput
  | commit henter hcheck =>
    obtain ⟨hnext, u, store, hview₁, hcom, hstep⟩ := h.commits hV R hinv hm hq hview henter
    obtain ⟨s', hs', hmirror⟩ := Mirror.passes (t := t')
      (s := { s with store, committed := s.committed ++ [u] }) hV h.consumer
      (by rw [hcommitted, ← hcom]) hsent hview₁ hnext hcheck hq' hm'
    exact ⟨s', .single (hstep s' hs'), hmirror⟩
  | commitWait henter hcheck =>
    obtain ⟨hnext, u, store, hview₁, hcom, hstep⟩ := h.commits hV R hinv hm hq hview henter
    obtain ⟨s', hs', hmirror⟩ := Mirror.waits (t := t')
      (s := { s with store, committed := s.committed ++ [u] }) hV h.consumer
      (by rw [hcommitted, ← hcom]) hsent hview₁ hnext hcheck hq' hm'
    exact ⟨s', .single (hstep s' hs'), hmirror⟩
  | @retry _ i _ _ hcheck =>
    obtain ⟨hnext, hwoken⟩ := h.retries hm
    obtain ⟨s', hs', hmirror⟩ := Mirror.passes (t := t') (s := { s with producer := .woken i })
      hV h.consumer (hsame (by rintro _ _ ⟨⟩)) hsent hview hnext hcheck hq' hm'
    exact ⟨s', hwoken.tail (a := .retryPut) hs', hmirror⟩
  | retryWait hcheck =>
    refine ⟨s, .refl s, ⟨queue, hq', hview⟩, ?_, h.consumer, hsame (by rintro _ _ ⟨⟩), hsent⟩
    rw [hm', ← hm]
    exact h.producer
  | @fill _ off bs _ _ hfill =>
    obtain ⟨hidle, hnext⟩ := h.idle hm (by rintro _ _ ⟨⟩)
    obtain ⟨store, hstore, hview'⟩ := hV.fill hview hfill
    refine ⟨{ s with store }, .single (a := .fill off bs) ?_, ⟨queue', hq', hview'⟩,
      .inl ⟨hidle, fun m hm => ?_⟩, h.consumer, hsame (by rintro _ _ ⟨⟩), hsent⟩
    · rw [NoCopy.step, hidle]
      simp only [hstore, Option.map_some]
    · exact Option.some.inj (hm'.symm.trans hm) ▸ hnext

/-- **A step of the producer's thread in the system** is a run of its queue. -/
theorem Mirror.moves_comp (h : Mirror View link p c n t s) (hV : Queue.Shows ops link View)
    (R : Refines ops n du cur Rep) (hinv : s.Inv du cur Rep l) {A : Arith} {conf : Conf P}
    {prog : P → Program σ} {ch : SinkChan P} (hch : (conf.chans p).sinks[c]? = some ch)
    (hn : ch.count = n) (hmoves : Dsys.Moves A conf prog t.traced.sys (.comp p) t'.traced.sys)
    (hcommitted : t'.committed = t.noteComp p) (hdealt : t'.dealt = t.dealt) :
    ∃ s', Reaches (NoCopy.step ops n) s s' ∧ Mirror View link p c n t' s' := by
  have hdealt' : t'.dealt p c = t.dealt p c := by rw [hdealt]
  -- Whatever is not a put on the channel leaves its queue alone.
  have helse {m : Micro P (ℤ × List Byte)} (hidle : s.producer = .idle)
      (hqueue : (t'.traced.sys.queues p)[c]? = (t.traced.sys.queues p)[c]?)
      (hm' : (t'.traced.sys.comp p).micro = some m) (henters : m.Enters c n)
      (hcom : t.noteComp p p c = t.committed p c) :
      ∃ s', Reaches (NoCopy.step ops n) s s' ∧ Mirror View link p c n t' s' := by
    refine ⟨s, .refl s, h.elsewhere hqueue (.inl ⟨hidle, fun m' hm'' => ?_⟩)
      (by rw [hcommitted, hcom]) hdealt'⟩
    exact Option.some.inj (hm'.symm.trans hm'') ▸ henters
  generalize hsys : t'.traced.sys = sys' at hmoves helse
  cases hmoves with
  | call hm hcall =>
    obtain ⟨hidle, -⟩ | ⟨i, next, heq, -⟩ := h.producer
    · exact helse hidle rfl (Traced.micro_setMicro ..) (hn ▸ enters_bcCall hch)
        (by simp only [noteComp, hm])
    · cases hm.symm.trans heq
  | returns hm =>
    obtain ⟨hidle, -⟩ := h.idle hm (by rintro _ _ ⟨⟩)
    refine ⟨s, .refl s, h.elsewhere (by rw [hsys]; rfl) (.inl ⟨hidle, fun m hm' => ?_⟩)
      (by rw [hcommitted]; simp only [noteComp, hm]) hdealt'⟩
    simp [hsys, Dsys.returns] at hm'
  | @queue _ micro c' queue queue' next hm hq hon =>
    by_cases hc : c' = c
    · subst hc
      refine h.onQueue hV R hinv hm hq hon ?_ (by rw [hsys]; exact Traced.micro_setMicro ..)
        hcommitted hdealt
      rw [hsys]
      simp [(List.getElem?_eq_some_iff.mp hq).1]
    · have hqueue : (((t.traced.sys.setQueue p c' queue').setMicro p next).queues p)[c]? =
          (t.traced.sys.queues p)[c]? := by simp [hc]
      obtain ⟨hidle, henters⟩ := h.idle hm fun i next hretry => by
        subst hretry
        cases hon <;> exact hc rfl
      refine helse hidle hqueue (Traced.micro_setMicro ..) (hon.enters henters hc) ?_
      simp only [noteComp, hm]
      cases hon <;> simp [Function.update_of_ne (Ne.symm hc)]
  | request hm | pollAgain hm =>
    obtain ⟨hidle, henters⟩ := h.idle hm (by rintro _ _ ⟨⟩)
    exact helse hidle rfl (Traced.micro_setMicro ..) henters (by simp only [noteComp, hm])
  | @read _ p' n' next bs socket hm =>
    obtain ⟨hidle, henters⟩ := h.idle hm (by rintro _ _ ⟨⟩)
    exact helse hidle rfl (Traced.micro_setMicro ..) (henters bs) (by simp only [noteComp, hm])
  | @poll _ links p' tag rest sz du next hm =>
    obtain ⟨hidle, henters⟩ := h.idle hm (by rintro _ _ ⟨⟩)
    refine helse hidle rfl (Traced.micro_setMicro ..) ?_ (by simp only [noteComp, hm])
    intro flag
    change Micro.Enters c n (if flag = intBytes 0 then _ else _)
    split <;> exact henters

/-- **An answer from the channel** is a send from its queue. -/
theorem Mirror.sends (h : Mirror View link p c n t s) (hV : Queue.Shows ops link View)
    (R : Refines ops n du cur Rep) (hinv : s.Inv du cur Rep l) {conf : Conf P}
    (hwf : t.traced.sys.Wf conf) (hlinks : ∀ q tag l, (conf.ltab p q).find? (·.tag = tag) = some l →
      l.channel = c → ∃ k, link k = (q, tag)) {p' q' : P} {r : GetRequest} {l' : Link}
    {queue queue' : Queue P} {fd : List Byte}
    (hserve : t.traced.sys.serving conf p' q' = some (r, l', queue, .sent queue' fd))
    (hsys : t'.traced.sys = (t.traced.sys.setQueue p' l'.channel queue').answered p' q' r l' fd)
    (hcommitted : t'.committed = t.committed) (hdealt : t'.dealt = t.noteServe conf p' q') :
    ∃ s', Reaches (NoCopy.step ops n) s s' ∧ Mirror View link p c n t' s' := by
  have hcom : t'.committed p c = t.committed p c := by rw [hcommitted]
  have hcomp : t'.traced.sys.comp p = t.traced.sys.comp p := by rw [hsys]; rfl
  have hdealt' := (congrFun (congrFun hdealt p) c).trans (t.noteServe_of_sent hserve p c)
  have hproducer : Producer (t'.traced.sys.comp p).micro c n s.producer := by
    rw [hcomp]
    exact h.producer
  have hqueues : (t'.traced.sys.queues p)[c]? =
      if p' = p ∧ l'.channel = c then some queue' else (t.traced.sys.queues p)[c]? := by
    obtain ⟨-, -, hqueue, -⟩ := Dsys.serving_eq_some.mp hserve
    rw [hsys]
    change ((t.traced.sys.setQueue p' l'.channel queue').queues p)[c]? = _
    rw [Dsys.queues_setQueue]
    by_cases hp : p' = p
    · subst hp
      rw [if_pos rfl, List.getElem?_set, if_pos (List.getElem?_eq_some_iff.mp hqueue).1]
      simp
    · rw [if_neg (Ne.symm hp), if_neg fun hpc => hp hpc.1]
  by_cases hpc : p' = p ∧ l'.channel = c
  · obtain ⟨rfl, rfl⟩ := hpc
    obtain ⟨-, hlink, hqueue, ch, -, hsend⟩ := Dsys.serving_eq_some.mp hserve
    rw [hwf.serviceLink_eq] at hlink
    obtain ⟨k, hk⟩ := hlinks q' r.tag l' hlink rfl
    obtain ⟨queue₀, hq₀, hview⟩ := h.queue
    obtain rfl := Option.some.inj (hqueue.symm.trans hq₀)
    have hsend' : queue.send (link k).1 (link k).2 (sizeMul ch.dtype.bytes r.dunits) r.condRecv =
        some (.sent queue' fd) := by rw [hk]; exact hsend
    obtain ⟨store, hstore, hview'⟩ := hV.send hview hsend'
    obtain ⟨u, rfl⟩ := R.exists_wrote hinv.rep hstore
    refine ⟨s.sends k r.condRecv store (preamble r.condRecv ++ u),
      .single (a := .get k r.condRecv) ?_, ⟨queue', by rw [hqueues, if_pos ⟨rfl, rfl⟩], hview'⟩,
      ?_, fun j => ?_, h.committed.trans hcom.symm, ?_⟩
    · rw [NoCopy.step, h.consumer k]
      simp only [NoCopy.serve, hstore, Option.map_some]
    · obtain ⟨hidle, henters⟩ | ⟨i, next, hm, hcall, henters⟩ := hproducer
      · exact .inl ⟨by simp [NoCopy.sends, NoCopy.broadcast, hidle, Thread.wake], henters⟩
      · exact .inr ⟨i, next, hm, by simpa [NoCopy.sends, NoCopy.broadcast] using hcall, henters⟩
    · obtain rfl | hj := eq_or_ne j k
      · simp [NoCopy.sends]
      · simp [NoCopy.sends, NoCopy.broadcast, hj, h.consumer j, Thread.wake]
    · rw [hdealt', if_pos ⟨rfl, rfl⟩, ← h.sent, NoCopy.sentUnits, NoCopy.sends,
        List.filterMap_append, List.map_append]
      simp [NoCopy.sentUnits, hk]
  · rw [if_neg hpc] at hqueues
    rw [if_neg hpc, List.append_nil] at hdealt'
    exact ⟨s, .refl s, h.elsewhere hqueues hproducer hcom hdealt'⟩

/-- **A step of the system takes the channel through a run of its queue.** -/
theorem Mirror.step (h : Mirror View link p c n t s) (hV : Queue.Shows ops link View)
    (R : Refines ops n du cur Rep) (hinv : s.Inv du cur Rep l) {A : Arith} {conf : Conf P}
    {prog : P → Program σ} (hwf : t.traced.sys.Wf conf) {ch : SinkChan P}
    (hch : (conf.chans p).sinks[c]? = some ch) (hn : ch.count = n)
    (hlinks : ∀ q tag l, (conf.ltab p q).find? (·.tag = tag) = some l →
      l.channel = c → ∃ k, link k = (q, tag)) {a : DsysAct P}
    (hstep : t.step A conf prog a = some t') :
    ∃ s', Reaches (NoCopy.step ops n) s s' ∧ Mirror View link p c n t' s' := by
  have hmoves := Dsys.moves_of_step (Traced.sys_step (traced_step hstep))
  obtain ⟨traced, -, rfl⟩ := Option.map_eq_some_iff.mp hstep
  cases a with
  | comp q =>
    by_cases hp : p = q
    · subst hp
      exact h.moves_comp hV R hinv hch hn hmoves rfl rfl
    · obtain ⟨hcomp, hqueues⟩ := Traced.frame_moves_comp hmoves hp
      exact ⟨s, .refl s, h.elsewhere (by rw [hqueues]) (by rw [hcomp]; exact h.producer)
        (congrFun (t.noteComp_of_ne hp) c) rfl⟩
  | serve p' q' =>
    generalize hsys : traced.sys = sys' at hmoves
    cases hmoves with
    | sent hserve => exact h.sends hV R hinv hwf hlinks hserve hsys rfl rfl
    | refused hserve =>
      refine ⟨s, .refl s, h.elsewhere (by rw [hsys]; rfl) ?_ rfl ?_⟩
      · rw [hsys]
        exact h.producer
      · change t.noteServe conf p' q' p c = _
        simp only [noteServe, hserve]
  | recv p' q' | deliverRequest q' p' | deliverData p' q' =>
    generalize hsys : traced.sys = sys' at hmoves
    refine ⟨s, .refl s, h.elsewhere ?_ ?_ rfl rfl⟩
    · rw [hsys]
      cases hmoves
      rfl
    · rw [hsys]
      cases hmoves
      exact h.producer

variable {A : Arith} {conf : Conf P} {prog : P → Program σ} {fresh : Fresh P} {init : P → σ}

/-- **A run of the system takes each no-copy channel through a run of its queue.** -/
theorem exists_mirror (hV : Queue.Shows ops link View) (R : Refines ops n du cur Rep)
    {ch : SinkChan P} (hch : (conf.chans p).sinks[c]? = some ch) (hn : ch.count = n)
    (hlinks : ∀ q tag l, (conf.ltab p q).find? (·.tag = tag) = some l →
      l.channel = c → ∃ k, link k = (q, tag)) {store : τ}
    (hview : View (Queue.create fresh p c ch) store) (hstore : Rep store (SlotLog.empty _ ι))
    (ht : Reaches (step A conf prog) (start conf fresh init) t) :
    ∃ s, Reaches (NoCopy.step ops n) (NoCopy.start store) s ∧ Mirror View link p c n t s := by
  have h : t.traced.sys.Wf conf ∧
      ∃ s, Reaches (NoCopy.step ops n) (NoCopy.start store) s ∧ Mirror View link p c n t s := by
    refine ht.invariant (P := fun t => t.traced.sys.Wf conf ∧
      ∃ s, Reaches (NoCopy.step ops n) (NoCopy.start store) s ∧ Mirror View link p c n t s) ?_
      ⟨Dsys.wf_start conf fresh init, _, .refl _, ⟨_, ?_, hview⟩, .inl ⟨rfl, nofun⟩, fun _ => rfl,
        rfl, rfl⟩
    · rintro t a t' ⟨hwf, s, hs, h⟩ hstep
      obtain ⟨l, hinv⟩ := R.reaches hstore hs
      obtain ⟨s', hs', h'⟩ := h.step hV R hinv hwf hch hn hlinks hstep
      exact ⟨hwf.moves (Dsys.moves_of_step (Traced.sys_step (traced_step hstep))), s', hs.trans hs',
        h'⟩
    · change (((conf.chans p).sinks.mapIdx fun c ch => Queue.create fresh p c ch))[c]? = _
      rw [List.getElem?_mapIdx, hch, Option.map_some]
  exact h.2

end Mirror

end Dealt

/-! ## Farms, and channels to all of their consumers -/

section Channels

variable [DecidableEq P] (A : Arith) (conf : Conf P) (prog : P → Program σ) (fresh : Fresh P)
  (init : P → σ) (p : P) (c : ℕ) (ch : SinkChan P) (hch : (conf.chans p).sinks[c]? = some ch)
  (hfits : ch.fits) (t : Dealt P σ)
  (ht : Reaches (Dealt.step A conf prog) (Dealt.start conf fresh init) t)

include hch hfits ht

/-- **A farm deals out what was committed, every unit to one worker.**  In every run of the system,
whoever asks and in whatever order: the data sent from a farm is, reply by reply, the beginning of
the units that were committed, at most a block of them is still to be sent, and what a worker was
sent is its part of them, in order. -/
theorem farm_deals_once (hrole : ch.role = .farmn) :
    (t.dealt p c).map Prod.snd <+: t.committed p c ∧
      (t.committed p c).length ≤ (t.dealt p c).length + ch.dunits ∧
      ∀ q, t.grants p c q = ((t.dealt p c).filter fun x => x.1.1 = q).map Prod.snd := by
  have R := farmn_refines (P × ℕ) ch.count ch.dunits ch.dtype.bytes
  have hstore : Nmc12m.Rep ch.dunits ch.dtype.bytes
      (internalFarmnQCreate (fresh.mem p c 0) (fresh.rc p c) ch.dunits ch.dtype.bytes).queue.1
      (internalFarmnQCreate (fresh.mem p c 0) (fresh.rc p c) ch.dunits ch.dtype.bytes).queue.2
      (SlotLog.empty (List Byte) Unit) := by
    obtain ⟨hdu, -, hbytes⟩ := (SinkChan.fits_iff (by rw [SinkChan.copies, hrole]; rfl)).mp hfits
    exact rep_internalFarmnQCreate _ _ hdu hbytes
  obtain ⟨s, hs, h⟩ := Dealt.exists_mirror Queue.shows_farmn R hch rfl
    (fun q tag _ _ _ => ⟨(q, tag), rfl⟩) (by rw [Queue.create, hrole]) hstore ht
  obtain ⟨l, hinv⟩ := R.reaches hstore hs
  have hunits : (t.dealt p c).map Prod.snd = l.items.take (l.read ()) := by
    rw [← hinv.units, NoCopy.units_unit, ← h.sent, List.map_map]
    rfl
  have hitems : l.items = t.committed p c := hinv.committed.trans h.committed
  refine ⟨?_, ?_, fun q => Dealt.grants_eq ht p c q⟩
  · rw [hunits, ← hitems]
    exact List.take_prefix _ _
  · have hlen : (t.dealt p c).length = l.read () := by
      rw [← List.length_map Prod.snd, hunits,
        List.length_take_of_le ((hinv.rep.wf.read_le ()).trans SlotLog.released_le)]
    rw [hlen, ← hitems]
    exact hinv.rep.wf.room ()

end Channels

/-- 0 fills and commits two units. -/
def twoUnits : List Call :=
  [.fill 0 0 [5], .commit (.sink 0), .fill 0 0 [6], .commit (.sink 0)]

/-- Worker 2 is the first to ask. -/
theorem farm_deals_once_two : ∃ t : Dealt (Fin 3) ℕ, t.committed 0 0 = [[5], [6]] ∧
    t.dealt 0 0 = [((2, 0), [5])] ∧ t.grants 0 0 2 = [[5]] ∧
    (t.dealt 0 0).map Prod.snd <+: t.committed 0 0 := by
  have hrun : ∃ t, run (Dealt.step noArith (fanConf .farmn .pipe [1, 2]) (fanProg twoUnits 1))
      (Dealt.start (fanConf .farmn .pipe [1, 2]) zeros fun _ => 0)
      (List.replicate 11 (.comp 0) ++ [.comp 2, .comp 2, .deliverRequest 2 0, .recv 0 2,
        .serve 0 2]) = some t ∧ t.committed 0 0 = [[5], [6]] ∧
      t.dealt 0 0 = [((2, 0), [5])] := ⟨_, rfl, rfl, rfl⟩
  obtain ⟨t, hrun, hcommitted, hdealt⟩ := hrun
  obtain ⟨hpre, -, hgrants⟩ := farm_deals_once noArith (fanConf .farmn .pipe [1, 2])
    (fanProg twoUnits 1) zeros (fun _ => 0) 0 0 ⟨.farmn, [1, 2], .char, 2⟩ rfl (by decide) t
    ⟨_, hrun⟩ rfl
  refine ⟨t, hcommitted, hdealt, ?_, hpre⟩
  rw [hgrants, hdealt]
  rfl

/-- The tag of the link that `q` has to channel `c` of `p`. -/
def Conf.tagOf (conf : Conf P) (p : P) (c : ℕ) (q : P) : ℕ :=
  (((conf.ltab p q).find? (·.channel = c)).map Link.tag).getD 0

/-- The members of `plist`, with their tags. -/
def Conf.linkOf (conf : Conf P) (p : P) (c : ℕ) (plist : List P) (k : Fin plist.length) : P × ℕ :=
  (plist.get k, conf.tagOf p c (plist.get k))

theorem Conf.tagOf_eq (conf : Conf P) {p q : P} {c : ℕ} {l : Link} (hl : l ∈ conf.ltab p q)
    (hc : l.channel = c) (hone : ∀ l ∈ conf.ltab p q, ∀ l' ∈ conf.ltab p q, l.channel = c →
      l'.channel = c → l.tag = l'.tag) : conf.tagOf p c q = l.tag := by
  obtain ⟨l', hl'⟩ := Option.isSome_iff_exists.mp
    (List.find?_isSome.mpr ⟨l, hl, decide_eq_true hc⟩ :
      ((conf.ltab p q).find? (·.channel = c)).isSome)
  rw [tagOf, hl']
  exact hone l' (List.mem_of_find?_eq_some hl') l hl (by simpa using List.find?_some hl') hc

/-- No process is in the list twice. -/
theorem Conf.linkOf_fst_inj (conf : Conf P) (p : P) (c : ℕ) {plist : List P}
    (hnodup : plist.Nodup) (j k : Fin plist.length)
    (hjk : (conf.linkOf p c plist j).1 = (conf.linkOf p c plist k).1) : j = k :=
  hnodup.injective_get hjk

/-- Whoever has a link to the channel is in the list, with its tag. -/
theorem Conf.exists_linkOf (conf : Conf P) {p q : P} {c tag : ℕ} {plist : List P} {l : Link}
    (hmem : ∀ q, ∀ l ∈ conf.ltab p q, l.channel = c → q ∈ plist)
    (hone : ∀ q, ∀ l ∈ conf.ltab p q, ∀ l' ∈ conf.ltab p q, l.channel = c → l'.channel = c →
      l.tag = l'.tag) (hl : (conf.ltab p q).find? (·.tag = tag) = some l) (hc : l.channel = c) :
    ∃ k, conf.linkOf p c plist k = (q, tag) := by
  have hl' := List.mem_of_find?_eq_some hl
  obtain ⟨k, rfl⟩ := List.mem_iff_get.mp (hmem q l hl' hc)
  have htag : l.tag = tag := by simpa using List.find?_some hl
  exact ⟨k, Prod.ext rfl ((conf.tagOf_eq hl' hc (hone _)).trans htag)⟩

section Channels

variable [DecidableEq P] (A : Arith) (conf : Conf P) (prog : P → Program σ) (fresh : Fresh P)
  (init : P → σ) (p : P) (c : ℕ) (ch : SinkChan P) (hch : (conf.chans p).sinks[c]? = some ch)
  (hfits : ch.fits) (t : Dealt P σ)
  (ht : Reaches (Dealt.step A conf prog) (Dealt.start conf fresh init) t)

include hch hfits ht

/-- **The other no-copy channels give every consumer all of it.**  Where each consumer has one link
to the channel, what it was sent is the beginning of the units that were committed, and at most a
block of them is still to be sent to it. -/
theorem slots_deliver_each
    (hrole : ch.role = .pipen ∧ ch.plist.length = 1 ∨ ch.role = .replicaten)
    (hnodup : ch.plist.Nodup) (hcount : ch.plist.length < 2 ^ 16)
    (hmem : ∀ q, ∀ l ∈ conf.ltab p q, l.channel = c → q ∈ ch.plist)
    (hone : ∀ q, ∀ l ∈ conf.ltab p q, ∀ l' ∈ conf.ltab p q, l.channel = c → l'.channel = c →
      l.tag = l'.tag) :
    ∀ q ∈ ch.plist, t.grants p c q <+: t.committed p c ∧
      (t.committed p c).length ≤ (t.grants p c q).length + ch.dunits := by
  have hfst := conf.linkOf_fst_inj p c hnodup
  have hlink : Function.Injective (conf.linkOf p c ch.plist) := fun j k hjk =>
    hfst j k (congrArg Prod.fst hjk)
  have hcard : Fintype.card (Fin ch.plist.length) = ch.count := by
    rw [Fintype.card_fin, SinkChan.count]
    obtain ⟨hrole, hlen⟩ | hrole := hrole <;> rw [hrole]
    exact hlen
  have hn : ch.count < 2 ^ 16 := by rwa [← hcard, Fintype.card_fin]
  have R : Refines (nmc12mOps (Fin ch.plist.length)) ch.count ch.dunits id
      fun s l => Nmc12m.Rep ch.dunits ch.dtype.bytes s.1 s.2 l := by
    rw [← hcard] at hn ⊢
    exact nmc12m_refines hn
  let store : Linked (Fin ch.plist.length) :=
    (internalNmc12mCreate (fresh.mem p c 0) (fresh.rc p c) ch.dunits ch.dtype.bytes,
      fun _ => linkVptr)
  have hstore : Nmc12m.Rep ch.dunits ch.dtype.bytes store.1 store.2 (SlotLog.empty _ _) := by
    have hcopies : ch.copies = false := by
      rw [SinkChan.copies]
      obtain ⟨hrole, -⟩ | hrole := hrole <;> rw [hrole] <;> rfl
    obtain ⟨hdu, -, hbytes⟩ := (SinkChan.fits_iff hcopies).mp hfits
    exact Nmc12m.rep_create _ _ hdu hbytes
  have hview : ∃ vptrs, Queue.create fresh p c ch = .nmc12m (store.1, vptrs) ∧
      store.2 = vptrs ∘ conf.linkOf p c ch.plist := by
    refine ⟨fun _ => linkVptr, ?_, rfl⟩
    obtain ⟨hrole, -⟩ | hrole := hrole <;> rw [Queue.create, hrole]
  obtain ⟨s, hs, h⟩ := Dealt.exists_mirror (Queue.shows_nmc12m hlink) R hch rfl
    (fun _ _ _ hl hc => conf.exists_linkOf hmem hone hl hc) hview hstore ht
  obtain ⟨l, hinv⟩ := R.reaches (q := store) hstore hs
  intro q hq
  obtain ⟨i, hi, rfl⟩ := List.mem_iff_getElem.mp hq
  have hitems : l.items = t.committed p c := hinv.committed.trans h.committed
  have hgrants : t.grants p c ch.plist[i] = l.items.take (l.read ⟨i, hi⟩) := by
    rw [Dealt.grants_eq ht, ← h.sent, ← hinv.units]
    exact s.units_link hfst ⟨i, hi⟩
  rw [hgrants, ← hitems]
  refine ⟨List.take_prefix _ _, ?_⟩
  rw [List.length_take_of_le ((hinv.rep.wf.read_le _).trans SlotLog.released_le)]
  exact hinv.rep.wf.room _

end Channels

/-- `conf` with links to the members of `plist` only. -/
def Conf.linkedTo [DecidableEq P] (plist : List P) (conf : Conf P) : Conf P where
  chans := conf.chans
  ltab p q := if q ∈ plist then conf.ltab p q else []

/-- Consumer 2 has asked, and 1 has not. -/
theorem slots_deliver_each_two : ∃ t : Dealt (Fin 3) ℕ, t.committed 0 0 = [[5], [6]] ∧
    t.dealt 0 0 = [((2, 0), [5])] ∧ t.grants 0 0 1 <+: [[5], [6]] ∧
    t.grants 0 0 2 <+: [[5], [6]] := by
  have hrun : (run (Dealt.step noArith ((fanConf .replicaten .pipe [1, 2]).linkedTo [1, 2])
        (fanProg twoUnits 1))
      (Dealt.start ((fanConf .replicaten .pipe [1, 2]).linkedTo [1, 2]) zeros fun _ => 0)
      (List.replicate 11 (.comp 0) ++ [.comp 2, .comp 2, .deliverRequest 2 0, .recv 0 2,
        .serve 0 2])).map (fun t => (t.committed 0 0, t.dealt 0 0)) =
      some ([[5], [6]], [((2, 0), [5])]) := by decide +kernel
  obtain ⟨t, hrun, heq⟩ := Option.map_eq_some_iff.mp hrun
  obtain ⟨hcommitted, hdealt⟩ := Prod.mk.inj heq
  have h := slots_deliver_each noArith ((fanConf .replicaten .pipe [1, 2]).linkedTo [1, 2])
    (fanProg twoUnits 1) zeros (fun _ => 0) 0 0 ⟨.replicaten, [1, 2], .char, 2⟩ rfl (by decide) t
    ⟨_, hrun⟩ (.inr rfl) (by decide) (by decide) (by decide) (by decide)
  rw [hcommitted] at h
  exact ⟨t, hcommitted, hdealt, (h 1 (by decide)).1, (h 2 (by decide)).1⟩

end Libdsys
