import Libdsys.Branch.Iface
import Libdsys.Queue.Nmc12m

/-!
# Queue/Replicaten — consumers that leave

A put on a REPLICATEN channel counts the readers of its unit by `c->rc`, which it reads before it
takes the queue's lock; a KILL decrements `c->rc`, and leaves the counters of the slots alone.  So
they stay right as long as nobody leaves behind what it should have read.  The destructor a KILL
runs is that of the link before: behind one of a pipe it releases the channel, whoever is left.

* `Replicaten.Core` — in a careful run the queue represents a log whose cursors are those attached.
* `counts_iff` — the counters are right along a run exactly when all its steps are careful.
-/

open Machinery

namespace Libdsys

/-- A REPLICATEN sink and the links of its consumers. -/
structure Replicaten (T : Type) where
  queue : NoCopy (Linked T) T
  /-- The channel, until it is released. -/
  channel : Option Channel
  /-- The consumers whose link was not destroyed. -/
  attached : Finset T
  /-- `c->rc` as the producer read it, until its put takes the lock. -/
  sample : Option ℕ

inductive ReplicatenAct (T : Type)
  /-- `__bc_p_replicaten` reads `c->rc`. -/
  | sample
  /-- A lock section of the queue. -/
  | queue (a : NoCopyAct T)
  /-- The link of a consumer is destroyed.  The destructor is that of the link before, in a channel
  of role `before`, or its own where it is the root. -/
  | kill (t : T) (before : Role)

/-- The service thread whose lock section it is. -/
def NoCopyAct.consumer? {T : Type} : NoCopyAct T → Option T
  | .get t _ | .retryGet t | .spuriousGet t => some t
  | _ => none

namespace Replicaten

variable {T : Type}

/-- How many units a consumer was sent. -/
def read [DecidableEq T] (s : Replicaten T) (k : T) : ℕ := (s.queue.units id k).length

/-- `__bc_c_replicaten`, and the links inserted. -/
def start [Fintype T] (rawMem : ℕ → Byte) (rawRc : ℕ → ℕ) (du size : ℕ) : Replicaten T where
  queue := nmc12mStart rawMem rawRc du size T
  channel := some ⟨.replicaten, Fintype.card T⟩
  attached := Finset.univ
  sample := none

variable [DecidableEq T]

/-- One step.  A KILL is served by the consumer's own service thread, so between its sends; nothing
is done on a channel that was released. -/
def step (s : Replicaten T) (a : ReplicatenAct T) : Option (Replicaten T) := do
  let channel ← s.channel
  match a with
  | .sample =>
    if s.queue.producer = .idle ∧ s.sample = none then some { s with sample := some channel.rc }
    else none
  | .queue .commit => do
    let c ← s.sample
    let queue ← s.queue.step (nmc12mOps T) c .commit
    return { s with queue, sample := none }
  | .queue (.fill off bs) =>
    if s.sample = none then
      (s.queue.step (nmc12mOps T) 0 (.fill off bs)).map fun queue => { s with queue }
    else none
  | .queue a =>
    if a.consumer?.all (· ∈ s.attached) then
      (s.queue.step (nmc12mOps T) 0 a).map fun queue => { s with queue }
    else none
  | .kill t before =>
    if t ∈ s.attached ∧ s.queue.consumer t = .idle then
      before.d.map fun d => { s with
        channel := if (d channel).2.isSome then none else some (d channel).1
        attached := s.attached.erase t }
    else none

/-- **The counter of each slot that holds a committed unit is the number of attached consumers that
have not read it** — and the producer waits for a slot only if one of them is still to read it.  A
queue that was released has no counters. -/
def Counts (du : ℕ) (s : Replicaten T) : Prop := s.attached.Nonempty →
  s.channel.isSome ∧ (∀ j < s.queue.committed.length, s.queue.committed.length ≤ j + du →
    s.queue.store.1.rc[j % du]? = some {k ∈ s.attached | s.read k ≤ j}.card) ∧
  ∀ i, s.queue.producer = .asleep i → ∃ j < s.queue.committed.length,
    s.queue.committed.length ≤ j + du ∧ j % du = i ∧ ∃ k ∈ s.attached, s.read k ≤ j

/-- **A careful step**: no consumer leaves with units unread while another stays, nor behind a link
whose destructor does not count, and a put counts the consumers that are attached when it has the
lock. -/
def careful (s : Replicaten T) : ReplicatenAct T → Bool
  | .queue .commit => s.attached = ∅ ∨ s.sample.any fun c => c % 2 ^ 16 = s.attached.card
  | .kill t before =>
    s.attached.erase t = ∅ ∨ before.counts ∧ s.queue.committed.length ≤ s.read t
  | _ => true

/-! ## What a step can be -/

/-- **What a step can be**, on a channel that was not released. -/
inductive Moves (s : Replicaten T) : ReplicatenAct T → Replicaten T → Prop
  | sample {c} (hc : s.channel = some c) : Moves s .sample { s with sample := some c.rc }
  | commit {c u store i queue} (hsample : s.sample = some c) (hidle : s.queue.producer = .idle)
    (hu : (nmc12mOps T).slotUnit s.queue.store = some u)
    (henter : (nmc12mOps T).putEnter s.queue.store c = some (store, i))
    (hcheck : NoCopy.check (nmc12mOps T)
      { s.queue with store, committed := s.queue.committed ++ [u] } i = some queue) :
    Moves s (.queue .commit) { s with queue, sample := none }
  | fill {off bs store} (hidle : s.queue.producer = .idle)
    (hfill : (nmc12mOps T).fill s.queue.store off bs = some store) :
    Moves s (.queue (.fill off bs)) { s with queue := { s.queue with store } }
  | retryPut {i queue} (hwoken : s.queue.producer = .woken i)
    (hcheck : s.queue.check (nmc12mOps T) i = some queue) :
    Moves s (.queue .retryPut) { s with queue }
  | serve {a t condRecv queue} (ha : a.consumer? = some t) (ht : t ∈ s.attached)
    (hserve : s.queue.serve (nmc12mOps T) t condRecv = some queue) :
    Moves s (.queue a) { s with queue }
  | spuriousPut {i} (hasleep : s.queue.producer = .asleep i) :
    Moves s (.queue .spuriousPut) { s with queue := { s.queue with producer := .woken i } }
  | spuriousGet {t} : Moves s (.queue (.spuriousGet t))
    { s with queue := { s.queue with
      consumer := Function.update s.queue.consumer t (.woken ()) } }
  | kill {t before d c} (hc : s.channel = some c) (ht : t ∈ s.attached) (hd : before.d = some d) :
    Moves s (.kill t before) { s with
      channel := if (d c).2.isSome then none else some (d c).1
      attached := s.attached.erase t }

variable {s s' : Replicaten T} {a : ReplicatenAct T}

theorem moves_of_step (hs : s.step a = some s') : Moves s a s' := by
  obtain ⟨c, hc, hs⟩ := Option.bind_eq_some_iff.mp hs
  cases a with
  | sample =>
    obtain ⟨-, ⟨⟩⟩ := Option.ite_none_right_eq_some.mp hs
    exact .sample hc
  | kill t before =>
    obtain ⟨⟨ht, -⟩, hs⟩ := Option.ite_none_right_eq_some.mp hs
    obtain ⟨d, hd, rfl⟩ := Option.map_eq_some_iff.mp hs
    exact .kill hc ht hd
  | queue a =>
    cases a with
    | commit =>
      obtain ⟨c, hsample, hs⟩ := Option.bind_eq_some_iff.mp hs
      obtain ⟨queue, hqueue, ⟨⟩⟩ := Option.bind_eq_some_iff.mp hs
      cases hp : s.queue.producer with
      | idle =>
        simp only [NoCopy.step, hp, Option.bind_eq_bind, Option.bind_eq_some_iff] at hqueue
        obtain ⟨u, hu, ⟨store, i⟩, henter, hcheck⟩ := hqueue
        rw [← hp] at hcheck
        exact .commit hsample hp hu henter hcheck
      | asleep i | woken i => simp [NoCopy.step, hp] at hqueue
    | fill off bs =>
      obtain ⟨-, hs⟩ := Option.ite_none_right_eq_some.mp hs
      obtain ⟨queue, hqueue, rfl⟩ := Option.map_eq_some_iff.mp hs
      cases hp : s.queue.producer with
      | idle =>
        simp only [NoCopy.step, hp, Option.map_eq_some_iff] at hqueue
        obtain ⟨store, hfill, rfl⟩ := hqueue
        exact hp ▸ .fill hp hfill
      | asleep i | woken i => simp [NoCopy.step, hp] at hqueue
    | retryPut =>
      obtain ⟨-, hs⟩ := Option.ite_none_right_eq_some.mp hs
      obtain ⟨queue, hqueue, rfl⟩ := Option.map_eq_some_iff.mp hs
      cases hp : s.queue.producer with
      | woken i => exact .retryPut hp (by simpa only [NoCopy.step, hp] using hqueue)
      | asleep i | idle => simp [NoCopy.step, hp] at hqueue
    | spuriousPut =>
      obtain ⟨-, hs⟩ := Option.ite_none_right_eq_some.mp hs
      obtain ⟨queue, hqueue, rfl⟩ := Option.map_eq_some_iff.mp hs
      cases hp : s.queue.producer with
      | asleep i =>
        simp only [NoCopy.step, hp, Option.some.injEq] at hqueue
        exact hqueue ▸ .spuriousPut hp
      | woken i | idle => simp [NoCopy.step, hp] at hqueue
    | get t condRecv =>
      obtain ⟨ht, hs⟩ := Option.ite_none_right_eq_some.mp hs
      obtain ⟨queue, hqueue, rfl⟩ := Option.map_eq_some_iff.mp hs
      have ht : t ∈ s.attached := by simpa [NoCopyAct.consumer?] using ht
      cases hc : s.queue.consumer t with
      | idle => exact .serve rfl ht (by simpa only [NoCopy.step, hc] using hqueue)
      | asleep k | woken k => simp [NoCopy.step, hc] at hqueue
    | retryGet t =>
      obtain ⟨ht, hs⟩ := Option.ite_none_right_eq_some.mp hs
      obtain ⟨queue, hqueue, rfl⟩ := Option.map_eq_some_iff.mp hs
      have ht : t ∈ s.attached := by simpa [NoCopyAct.consumer?] using ht
      cases hc : s.queue.consumer t with
      | woken k => exact .serve rfl ht (by simpa only [NoCopy.step, hc] using hqueue)
      | asleep k | idle => simp [NoCopy.step, hc] at hqueue
    | spuriousGet t =>
      obtain ⟨-, hs⟩ := Option.ite_none_right_eq_some.mp hs
      obtain ⟨queue, hqueue, rfl⟩ := Option.map_eq_some_iff.mp hs
      cases hc : s.queue.consumer t with
      | asleep k =>
        simp only [NoCopy.step, hc, Option.some.injEq] at hqueue
        exact hqueue ▸ .spuriousGet
      | woken k | idle => simp [NoCopy.step, hc] at hqueue

/-! ## Careful runs -/

/-- The log of the consumers attached. -/
def log (s : Replicaten T) : SlotLog (List Byte) s.attached where
  items := s.queue.committed
  held := s.queue.producer.call?.isSome
  read k := s.read k

/-- **The invariant of careful runs**, while anyone is attached: the queue represents the log of
those who are. -/
structure Core (du size : ℕ) (s : Replicaten T) : Prop where
  channel : s.channel = some ⟨.replicaten, s.attached.card⟩
  small : s.attached.card < 2 ^ 32
  rep : Nmc12m.Rep du size s.queue.store.1 (fun k : s.attached => s.queue.store.2 k) s.log
  index : ∀ i, s.queue.producer.call? = some i → i = s.queue.committed.length % du
  put_asleep : s.queue.producer.isAsleep = true → ¬ s.log.Free du

variable {du size : ℕ}

omit [DecidableEq T] in
/-- A counter counts over the consumers attached. -/
theorem pending_eq {A : Finset T} (items : List (List Byte)) (held : Bool) (read : T → ℕ) (j : ℕ) :
    SlotLog.pending (⟨items, held, fun k => read k⟩ : SlotLog (List Byte) A) j =
      {k ∈ A | read k ≤ j}.card := by
  rw [SlotLog.pending, Finset.univ_eq_attach]
  rw [Finset.filter_attach (read · ≤ j) A, Finset.card_map, Finset.card_attach]

theorem core_start [Fintype T] (rawMem : ℕ → Byte) (rawRc : ℕ → ℕ) (hdu : 0 < du)
    (hfits : du * size < 2 ^ 64) (hcard : Fintype.card T < 2 ^ 32) :
    (start (T := T) rawMem rawRc du size).Core du size where
  channel := rfl
  small := hcard
  rep := Nmc12m.rep_create rawMem rawRc hdu hfits
  index i hi := by cases hi
  put_asleep h := by cases h

/-- **In a careful run the counters are right**, and the producer waits for someone. -/
theorem Core.counts (h : s.Core du size) : s.Counts du := by
  intro _
  have hpending : ∀ j, s.log.pending j = {k ∈ s.attached | s.read k ≤ j}.card :=
    pending_eq s.queue.committed _ s.read
  refine ⟨by rw [h.channel]; rfl, fun j hj hle => ?_, fun i hi => ?_⟩
  · by_cases hwin : s.queue.committed.length + (!s.log.held).toNat ≤ j + du
    · rw [← hpending]
      exact h.rep.count j ⟨hj, hwin⟩
    · -- the producer's own slot: everyone has read what was in it
      have hheld : s.log.held = false := by
        cases hheld : s.log.held with
        | false => rfl
        | true =>
          rw [hheld] at hwin
          exact absurd hle hwin
      have hlen : s.queue.committed.length = j + du := by
        rw [hheld] at hwin
        exact le_antisymm hle (Nat.lt_succ_iff.mp (not_le.mp hwin))
      have hzero : s.log.pending j = 0 := SlotLog.pending_eq_zero_iff.mpr fun k => by
        have hfree := h.rep.wf.free hheld k
        change s.queue.committed.length < s.read k + du at hfree
        change j < s.read k
        omega
      rw [← hpending, hzero, ← Nat.add_mod_right j du, ← hlen]
      exact h.rep.next hheld ((Nat.zero_le j).trans_lt hj)
  · have hfree := h.put_asleep (by rw [hi]; rfl)
    rw [SlotLog.Free, not_forall] at hfree
    obtain ⟨k, hk⟩ := hfree
    have hroom := h.rep.wf.room k
    have hpos : 0 < s.queue.committed.length := h.rep.wf.held_ne_nil (by
      change s.queue.producer.call?.isSome = true
      rw [hi]
      rfl)
    change ¬ s.queue.committed.length < s.read k + du at hk
    change s.queue.committed.length ≤ s.read k + du at hroom
    have hdu := h.rep.wf.pos
    refine ⟨s.read k, by omega, hroom, ?_, k, k.2, le_rfl⟩
    rw [h.index i (by rw [hi]; rfl), ← Nat.add_mod_right, le_antisymm hroom (not_lt.mp hk)]

/-! ### What a careful step keeps -/

/-- The counter is stored in 16 bits. -/
theorem nmc12mPutEnter_congr (q : Nmc12m) {c c' : ℕ} (h : c % 2 ^ 16 = c' % 2 ^ 16) :
    nmc12mPutEnter q c = nmc12mPutEnter q c' := by
  rw [nmc12mPutEnter, nmc12mPutEnter, h]

/-- **Once through the loop of a put** that has entered. -/
theorem core_check {q q' : NoCopy (Linked T) T} {sample : Option ℕ}
    (hchannel : s.channel = some ⟨.replicaten, s.attached.card⟩) (hsmall : s.attached.card < 2 ^ 32)
    (hrep : Nmc12m.Rep du size q.store.1 (fun k : s.attached => q.store.2 k)
      ⟨q.committed, true, fun k => (q.units id k.1).length⟩)
    (hcheck : q.check (nmc12mOps T) (q.committed.length % du) = some q') :
    Core du size { s with queue := q', sample } := by
  simp only [NoCopy.check, nmc12mOps, Option.map_map, Option.map_eq_some_iff] at hcheck
  obtain ⟨o, ho, rfl⟩ := hcheck
  by_cases hfree : SlotLog.Free du (⟨q.committed, true, fun k => (q.units id k.1).length⟩ :
      SlotLog (List Byte) s.attached)
  · obtain ⟨q'', hq'', hrep'⟩ := hrep.check_free rfl hfree
    obtain rfl : some q'' = o := Option.some.inj (hq''.symm.trans ho)
    exact { channel := hchannel, small := hsmall, rep := hrep'
            index := fun i hi => by cases hi
            put_asleep := fun h => by cases h }
  · obtain rfl : none = o := Option.some.inj ((hrep.check_wait rfl hfree).symm.trans ho)
    exact { channel := hchannel, small := hsmall, rep := hrep
            index := fun i hi => (Option.some.inj hi).symm
            put_asleep := fun _ => hfree }

theorem Core.commit (h : s.Core du size) {c i : ℕ} {u : List Byte} {store : Linked T}
    {queue : NoCopy (Linked T) T} (hc : c % 2 ^ 16 = s.attached.card)
    (hidle : s.queue.producer = .idle) (hu : (nmc12mOps T).slotUnit s.queue.store = some u)
    (henter : (nmc12mOps T).putEnter s.queue.store c = some (store, i))
    (hcheck : NoCopy.check (nmc12mOps T)
      { s.queue with store, committed := s.queue.committed ++ [u] } i = some queue) :
    Core du size { s with queue, sample := none } := by
  have hheld : s.log.held = false := by
    change s.queue.producer.call?.isSome = false
    rw [hidle]
    rfl
  have hcard : Fintype.card s.attached = s.attached.card := Fintype.card_coe _
  obtain ⟨u', q', hu', hq', hrep⟩ := h.rep.enter hheld (by rw [hcard]; omega)
  obtain rfl : u' = u := Option.some.inj (hu'.symm.trans hu)
  rw [hcard, ← nmc12mPutEnter_congr _ (hc.trans (Nat.mod_eq_of_lt (by omega)).symm)] at hq'
  simp only [nmc12mOps, hq', Option.map_some, Option.some.injEq, Prod.mk.injEq] at henter
  obtain ⟨rfl, rfl⟩ := henter
  refine core_check (q := { s.queue with
    store := (q', s.queue.store.2), committed := s.queue.committed ++ [u'] }) h.channel h.small
    hrep ?_
  rw [List.length_append]
  exact hcheck

theorem log_sends {t : T} (ht : t ∈ s.attached) (condRecv : Bool) (store : Linked T)
    (u : List Byte) : ({ s with
      queue := s.queue.sends t condRecv store (preamble condRecv ++ u) } : Replicaten T).log =
    s.log.take ⟨t, ht⟩ := by
  rw [log, SlotLog.take, SlotLog.mk.injEq]
  refine ⟨rfl, congrArg Option.isSome (Thread.call?_wake _), funext fun k => ?_⟩
  change ((s.queue.sends t condRecv store (preamble condRecv ++ u)).units id k.1).length = _
  rw [NoCopy.units_sends, List.length_append]
  rcases eq_or_ne k ⟨t, ht⟩ with rfl | hne
  · rw [Function.update_self, id, if_pos rfl]
    rfl
  · rw [Function.update_of_ne hne, id, if_neg fun heq => hne (Subtype.ext heq.symm)]
    rfl

/-- **Once through the loop of a send** of a consumer that is attached. -/
theorem Core.serve (h : s.Core du size) {t : T} {condRecv : Bool} {queue : NoCopy (Linked T) T}
    (ht : t ∈ s.attached) (hserve : s.queue.serve (nmc12mOps T) t condRecv = some queue) :
    Core du size { s with queue } := by
  simp only [NoCopy.serve, nmc12mOps, Option.map_map, Option.map_eq_some_iff] at hserve
  obtain ⟨o, ho, rfl⟩ := hserve
  rcases lt_or_ge (s.log.read ⟨t, ht⟩) s.log.released with hready | hnot
  · obtain ⟨q', vptr, hsend, hrep⟩ := h.rep.send_ready hready
      (hready.trans_le SlotLog.released_le) [] condRecv
    obtain rfl := Option.some.inj (hsend.symm.trans ho)
    have hlink : (fun k : s.attached => Function.update s.queue.store.2 t vptr k) =
        Function.update (fun k : s.attached => s.queue.store.2 k) ⟨t, ht⟩ vptr :=
      Function.update_comp_eq_of_injective s.queue.store.2 Subtype.val_injective ⟨t, ht⟩ vptr
    refine { channel := h.channel, small := h.small, rep := ?_, index := ?_, put_asleep := ?_ }
    · rw [← hlink, ← log_sends ht condRecv (q', Function.update s.queue.store.2 t vptr) _] at hrep
      exact hrep
    · intro i hi
      exact h.index i ((Thread.call?_wake s.queue.producer).symm.trans hi)
    · intro hasleep
      exact absurd hasleep (by simp [NoCopy.sends, NoCopy.broadcast])
  · obtain rfl := Option.some.inj ((h.rep.send_not hnot [] condRecv).symm.trans ho)
    cases condRecv with
    | false => exact { h with }
    | true =>
      have hlog : ({ s with queue := s.queue.refuses t true (intBytes 0) } : Replicaten T).log =
          s.log := by
        rw [log, log, SlotLog.mk.injEq]
        exact ⟨rfl, rfl, funext fun k => congrArg List.length (NoCopy.units_refuses id _ t k.1)⟩
      exact { channel := h.channel, small := h.small, rep := hlog ▸ h.rep, index := h.index
              put_asleep := fun hasleep => hlog ▸ h.put_asleep hasleep }

omit [DecidableEq T] in
/-- A destructor that counts, and does not release, leaves one link less. -/
theorem counted_eq {before : Role} {d : Destructor} (hd : before.d = some d)
    (hcounts : before.counts) {role : Role} {n : ℕ} (hn : 1 < n) (hsmall : n < 2 ^ 32) :
    d ⟨role, n⟩ = (⟨role, n - 1⟩, none) := by
  obtain ⟨qtype, -, rfl⟩ := Role.d_eq hd
  have hdown := countDown_eq qtype (c := ⟨role, n⟩) hsmall
  rw [if_neg (show ¬ n = 0 by omega), if_neg (show ¬ n = 1 by omega)] at hdown
  rwa [if_pos hcounts]

/-- **A consumer that has read every unit leaves no trace.** -/
theorem Core.kill (h : s.Core du size) {t : T} {c : Channel} {before : Role} {d : Destructor}
    (hc : s.channel = some c) (ht : t ∈ s.attached) (hd : before.d = some d)
    (hleft : (s.attached.erase t).Nonempty) (hcounts : before.counts)
    (hread : s.queue.committed.length ≤ s.read t) : Core du size { s with
      channel := if (d c).2.isSome then none else some (d c).1
      attached := s.attached.erase t } := by
  obtain rfl : c = ⟨.replicaten, s.attached.card⟩ := Option.some.inj (hc.symm.trans h.channel)
  have hcard : 1 < s.attached.card := by
    have hpos := hleft.card_pos
    rw [Finset.card_erase_of_mem ht] at hpos
    omega
  have hdu := h.rep.wf.pos
  have hchannel : (if (d ⟨.replicaten, s.attached.card⟩).2.isSome then none
      else some (d ⟨.replicaten, s.attached.card⟩).1) =
        some ⟨.replicaten, (s.attached.erase t).card⟩ := by
    rw [counted_eq hd hcounts hcard h.small, Finset.card_erase_of_mem ht]
    rfl
  rw [hchannel]
  let stay : {k // k ∈ s.attached.erase t} → {k // k ∈ s.attached} :=
    fun k => ⟨k.1, Finset.mem_of_mem_erase k.2⟩
  refine { channel := rfl, small := ?_, rep := ?_, index := h.index, put_asleep := ?_ }
  · exact (Finset.card_le_card (Finset.erase_subset t s.attached)).trans_lt h.small
  · refine { h.rep with
      wf := { h.rep.wf with
        read_le := fun k => h.rep.wf.read_le (stay k)
        room := fun k => h.rep.wf.room (stay k)
        free := fun hheld k => h.rep.wf.free hheld (stay k) }
      link_eq := fun k => h.rep.link_eq (stay k)
      slot := fun j hj => h.rep.slot j ⟨hj.lt, hj.le⟩
      count := fun j hj => (h.rep.count j ⟨hj.lt, hj.le⟩).trans (congrArg some ?_) }
    have hlt : j < s.read t := hj.lt.trans_le hread
    have hfilter : {k ∈ s.attached.erase t | s.read k ≤ j} = {k ∈ s.attached | s.read k ≤ j} := by
      refine Finset.ext fun k => ?_
      rw [Finset.mem_filter, Finset.mem_filter, Finset.mem_erase]
      exact ⟨fun hk => ⟨hk.1.2, hk.2⟩, fun hk => ⟨⟨fun heq => by subst heq; omega, hk.1⟩, hk.2⟩⟩
    exact (pending_eq _ _ s.read j).trans ((congrArg Finset.card hfilter.symm).trans
      (pending_eq _ _ s.read j).symm)
  · refine fun hasleep hfree => h.put_asleep hasleep fun k => ?_
    by_cases hk : k.1 = t
    · change s.queue.committed.length < s.read k.1 + du
      rw [hk]
      omega
    · exact hfree ⟨k, Finset.mem_erase.mpr ⟨hk, k.2⟩⟩

/-! ### What a careless step breaks -/

theorem Moves.attached_subset (hs : Moves s a s') : s'.attached ⊆ s.attached := by
  cases hs with
  | kill hc ht hd => exact Finset.erase_subset _ _
  | _ => exact Finset.Subset.refl _

/-- **What a careful step keeps.** -/
theorem Core.moves (h : s.attached.Nonempty → s.Core du size) (hcareful : s.careful a)
    (hs : Moves s a s') (hatt : s'.attached.Nonempty) : s'.Core du size := by
  replace h := h (hatt.mono hs.attached_subset)
  cases hs with
  | sample hc => exact { h with }
  | @commit c u store i queue hsample hidle hu henter hcheck =>
    refine h.commit ?_ hidle hu henter hcheck
    simpa [careful, hsample, show s.attached ≠ ∅ from hatt.ne_empty] using hcareful
  | @fill off bs store hidle hfill =>
    obtain ⟨q', hq', rfl⟩ := Option.map_eq_some_iff.mp hfill
    have hheld : s.log.held = false := by
      change s.queue.producer.call?.isSome = false
      rw [hidle]
      rfl
    exact { h with rep := h.rep.fill hheld hq' }
  | @retryPut i queue hwoken hcheck =>
    obtain rfl := h.index i (by rw [hwoken]; rfl)
    have hheld : s.log.held = true := by
      change s.queue.producer.call?.isSome = true
      rw [hwoken]
      rfl
    refine core_check h.channel h.small ?_ hcheck
    rw [← hheld]
    exact h.rep
  | serve ha ht hserve => exact h.serve ht hserve
  | @spuriousPut i hasleep =>
    have hlog : ({ s with queue := { s.queue with producer := .woken i } } : Replicaten T).log =
        s.log := by
      rw [log, log, SlotLog.mk.injEq]
      exact ⟨rfl, by rw [hasleep]; rfl, rfl⟩
    exact { channel := h.channel, small := h.small, rep := hlog ▸ h.rep
            index := fun j hj => h.index j (by rw [hasleep]; exact hj)
            put_asleep := fun hasleep => by cases hasleep }
  | spuriousGet => exact { h with }
  | @kill t before d c hc ht hd =>
    obtain ⟨hcounts, hread⟩ : before.counts ∧ s.queue.committed.length ≤ s.read t := by
      simpa [careful, hatt.ne_empty] using hcareful
    exact h.kill hc ht hd hatt hcounts hread

omit [DecidableEq T] in
/-- A check leaves the counters, the units committed and the replies alone. -/
theorem check_frame {q q' : NoCopy (Linked T) T} {i : ℕ} [DecidableEq T]
    (hcheck : q.check (nmc12mOps T) i = some q') : q'.store.1.rc = q.store.1.rc ∧
      q'.committed = q.committed ∧ q'.replies = q.replies := by
  simp only [NoCopy.check, nmc12mOps, nmc12mPutCheck, Option.map_map,
    Option.map_eq_some_iff] at hcheck
  obtain ⟨n, -, rfl⟩ := hcheck
  by_cases hn : n = 0
  · rw [Function.comp_apply, Function.comp_apply, if_pos hn]
    exact ⟨rfl, rfl, rfl⟩
  · rw [Function.comp_apply, Function.comp_apply, if_neg hn]
    exact ⟨rfl, rfl, rfl⟩

/-- A put that counts other than the consumers attached. -/
theorem Core.not_counts_commit (h : s.Core du size) {c i : ℕ} {u : List Byte} {store : Linked T}
    {queue : NoCopy (Linked T) T} (hne : s.attached.Nonempty) (hc : c % 2 ^ 16 ≠ s.attached.card)
    (hidle : s.queue.producer = .idle)
    (henter : (nmc12mOps T).putEnter s.queue.store c = some (store, i))
    (hcheck : NoCopy.check (nmc12mOps T)
      { s.queue with store, committed := s.queue.committed ++ [u] } i = some queue) :
    ¬ ({ s with queue, sample := none } : Replicaten T).Counts du := by
  intro hcounts
  obtain ⟨hrc, hcommitted, hreplies⟩ := check_frame hcheck
  have hdu := h.rep.wf.pos
  have hheld : s.log.held = false := by
    change s.queue.producer.call?.isSome = false
    rw [hidle]
    rfl
  have hidx : s.queue.store.1.vptr.rcidx = s.queue.committed.length % du :=
    h.rep.rcidx.trans (congrArg (· % du) (SlotLog.released_of_not_held hheld))
  have hlt := h.rep.rcidx_lt s.queue.committed.length
  simp only [nmc12mOps, nmc12mPutEnter, hidx, hlt, if_true, Option.map_some, Option.some.injEq,
    Prod.mk.injEq] at henter
  obtain ⟨rfl, rfl⟩ := henter
  obtain ⟨-, hcount, -⟩ := hcounts hne
  have hall : {k ∈ s.attached | ({ s with queue, sample := none } : Replicaten T).read k ≤
      s.queue.committed.length} = s.attached := by
    refine Finset.filter_true_of_mem fun k hk => ?_
    rw [read, NoCopy.units, hreplies]
    exact (h.rep.wf.read_le ⟨k, hk⟩).trans SlotLog.released_le
  replace hcount := hcount s.queue.committed.length
    (by rw [hcommitted, List.length_append]; exact Nat.lt_succ_self _)
    (by rw [hcommitted, List.length_append, List.length_singleton]; omega)
  rw [hrc, List.getElem?_set_self hlt, hall] at hcount
  exact hc (Option.some.inj hcount)

/-- A consumer that leaves a unit unread. -/
theorem Core.not_counts_kill (h : s.Core du size) {t : T} {channel : Option Channel}
    (ht : t ∈ s.attached) (hleft : (s.attached.erase t).Nonempty)
    (hread : s.read t < s.queue.committed.length) :
    ¬ ({ s with channel, attached := s.attached.erase t } : Replicaten T).Counts du := by
  intro hcounts
  have hdu := h.rep.wf.pos
  obtain ⟨-, hcount, -⟩ := h.counts ⟨t, ht⟩
  obtain ⟨-, hcount', -⟩ := hcounts hleft
  replace hcount := hcount (s.queue.committed.length - 1) (by omega) (by omega)
  replace hcount' := hcount' (s.queue.committed.length - 1)
    (show s.queue.committed.length - 1 < s.queue.committed.length by omega)
    (show s.queue.committed.length ≤ _ by omega)
  have hmem : t ∈ {k ∈ s.attached | s.read k ≤ s.queue.committed.length - 1} :=
    Finset.mem_filter.mpr ⟨ht, by omega⟩
  have hcard := Option.some.inj (hcount.symm.trans hcount')
  change _ = {k ∈ s.attached.erase t | s.read k ≤ s.queue.committed.length - 1}.card at hcard
  rw [Finset.filter_erase] at hcard
  exact (Finset.card_erase_lt_of_mem hmem).ne hcard.symm

/-- A destructor that does not count releases the channel. -/
theorem not_counts_released {before : Role} {d : Destructor} (hd : before.d = some d)
    (hcounts : ¬ before.counts) {c : Channel} {attached : Finset T} (hleft : attached.Nonempty) :
    ¬ ({ s with
      channel := if (d c).2.isSome then none else some (d c).1
      attached } : Replicaten T).Counts du := by
  obtain ⟨qtype, -, rfl⟩ := Role.d_eq hd
  rw [if_neg hcounts]
  exact fun h => absurd (h hleft).1 (by simp)

/-- **A careless step leaves a wrong counter behind, or none.** -/
theorem Core.not_counts (h : s.attached.Nonempty → s.Core du size) (hcareful : ¬ s.careful a)
    (hs : Moves s a s') : ¬ s'.Counts du := by
  cases hs with
  | @commit c u store i queue hsample hidle hu henter hcheck =>
    have hne : s.attached.Nonempty := by
      rw [Finset.nonempty_iff_ne_empty]
      exact fun hempty => hcareful (by simp [careful, hempty])
    refine (h hne).not_counts_commit hne (fun hc => hcareful ?_) hidle henter hcheck
    simpa [careful, hsample] using Or.inr hc
  | @kill t before d c hc ht hd =>
    have hleft : (s.attached.erase t).Nonempty := by
      rw [Finset.nonempty_iff_ne_empty]
      exact fun hempty => hcareful (by simp [careful, hempty])
    by_cases hcounts : before.counts
    · refine (h ⟨t, ht⟩).not_counts_kill ht hleft (not_le.mp fun hread => hcareful ?_)
      simp [careful, hcounts, hread]
    · exact not_counts_released hd hcounts hleft
  | @serve a t condRecv queue ha ht hserve =>
    refine absurd ?_ hcareful
    cases a with
    | get | retryGet | spuriousGet => rfl
    | fill | commit | retryPut | spuriousPut => cases ha
  | sample | fill | retryPut | spuriousPut | spuriousGet => exact absurd rfl hcareful

end Replicaten

/-! ## When the counters are right -/

/-- **Departing consumers.**  Along a run of the producer's puts, the consumers' gets and KILLs, in
whatever order and behind whatever links, the counter of each slot that holds a committed unit is
always the number of attached consumers still to read it, and the producer only ever waits for one
of them, if and only if no consumer left with units unread or behind a pipe's link while another
stayed, and no put counted others than the consumers attached when it took the lock. -/
theorem counts_iff {T : Type} [Fintype T] [DecidableEq T] (rawMem : ℕ → Byte) (rawRc : ℕ → ℕ)
    (du size : ℕ) (hdu : 1 ≤ du) (hfits : du * size < 2 ^ 64) (hcard : Fintype.card T < 2 ^ 32)
    (acts : List (ReplicatenAct T)) (s : Replicaten T)
    (hrun : run Replicaten.step (.start rawMem rawRc du size) acts = some s) :
    Along Replicaten.step (Replicaten.Counts du) (.start rawMem rawRc du size) acts ↔
      (run (restrict (fun s a => s.careful a) Replicaten.step) (.start rawMem rawRc du size)
        acts).isSome := by
  refine along_iff (I := fun s : Replicaten T => s.attached.Nonempty → s.Core du size) ?_ ?_ ?_ ?_
    hrun
  · exact fun s h hne => (h hne).counts hne
  · exact fun s a t h hcareful ha => Replicaten.Core.moves h hcareful (Replicaten.moves_of_step ha)
  · exact fun s a t h hcareful ha =>
      Replicaten.Core.not_counts h hcareful (Replicaten.moves_of_step ha)
  · exact fun _ => Replicaten.core_start rawMem rawRc hdu hfits hcard

/-- Consumer 1 of two leaves with the only unit unread; consumer 0 reads it. -/
def departure : List (ReplicatenAct (Fin 2)) :=
  [.sample, .queue .commit, .kill 1 .replicaten, .queue (.get 0 false)]

theorem counts_iff_two : ¬ Along Replicaten.step (Replicaten.Counts 2)
    (.start (fun _ => 0) (fun _ => 7) 2 1) departure := by
  have hrun : ∃ s, run Replicaten.step (.start (fun _ => 0) (fun _ => 7) 2 1) departure = some s :=
    ⟨_, rfl⟩
  obtain ⟨s, hs⟩ := hrun
  rw [counts_iff (fun _ => 0) (fun _ => 7) 2 1 (by decide) (by decide) (by decide) departure s hs]
  decide

/-- **A consumer that left blocks the producer**: of two, one leaves with a unit unread, the other
reads it, and the put that comes to its slot again waits for nobody. -/
theorem departed_blocks : ∃ s : Replicaten (Fin 2),
    Reaches Replicaten.step (.start (fun _ => 0) (fun _ => 7) 2 1) s ∧ s.attached = {0} ∧
      s.read 0 = 1 ∧ s.queue.producer = .asleep 0 ∧ ¬ s.Counts 2 := by
  have hrun : ∃ s, run Replicaten.step (.start (fun _ => 0) (fun _ => 7) 2 1)
      (departure ++ [.sample, .queue .commit]) = some s ∧ s.attached = {0} ∧ s.read 0 = 1 ∧
      s.queue.producer = .asleep 0 ∧ s.queue.committed.length = 2 :=
    ⟨_, rfl, by decide, rfl, rfl, rfl⟩
  obtain ⟨s, hs, hatt, hread, hasleep, hlen⟩ := hrun
  refine ⟨s, ⟨_, hs⟩, hatt, hread, hasleep, fun hcounts => ?_⟩
  obtain ⟨j, hj, hle, hslot, k, hk, hkj⟩ := (hcounts (by rw [hatt]; decide)).2.2 0 hasleep
  obtain rfl : k = 0 := by simpa [hatt] using hk
  rw [hlen] at hj
  rw [hread] at hkj
  obtain rfl : j = 1 := by omega
  cases hslot

end Libdsys
