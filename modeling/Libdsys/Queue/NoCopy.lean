import Libdsys.Machinery.Monitor
import Libdsys.Machinery.Runs
import Libdsys.Machinery.SlotLog
import Libdsys.Queue.Mc121

/-!
# Queue/NoCopy — a slot queue under one lock, run by a producer and its service threads

The no-copy queues hand out pointers into their block: the producer writes the unit it is given
and *commits* it by a put, which returns only once the next slot is free; a service thread sends
the unit at its own pointer.  `SlotOps` lists what a queue does in one lock section, `NoCopy.step`
runs the sections of all threads in any order, with the condition variable they share.

* `Refines` — what a queue owes `Machinery.SlotLog`, one field per section.
* `Refines.reaches` — the rest follows for every run.
-/

open Machinery

namespace Libdsys

/-- `bc_vptr_t`: where a thread stands in the block, and which slot that is. -/
structure Vptr where
  var : ℕ
  rcidx : ℕ
deriving Repr, DecidableEq

/-- How a lock section of a send ends. -/
inductive SendOutcome (σ : Type)
  /-- A unit was written, and the condition variable broadcast. -/
  | sent (s : σ) (fd : List Byte)
  /-- A conditional receive was refused. -/
  | refused (fd : List Byte)
  /-- The thread goes to sleep. -/
  | wait

/-- The same outcome on another kind of queue. -/
def SendOutcome.map {σ τ : Type} (f : σ → τ) : SendOutcome σ → SendOutcome τ
  | .sent s fd => .sent (f s) fd
  | .refused fd => .refused fd
  | .wait => .wait

/-- The lock sections of a no-copy queue with service threads `T`; `none` is an access outside a
block. -/
structure SlotOps (σ T : Type) where
  /-- The unit the producer's pointer stands at. -/
  slotUnit : σ → Option (List Byte)
  /-- The producer writes inside the unit its pointer stands at. -/
  fill : σ → ℕ → List Byte → Option σ
  /-- A put up to its test, with the index the test looks at. -/
  putEnter : σ → ℕ → Option (σ × ℕ)
  /-- The test of a put — `some none` when it has to wait. -/
  putCheck : σ → ℕ → Option (Option σ)
  /-- A send, for a thread and its socket. -/
  send : σ → T → List Byte → Bool → Option (SendOutcome σ)

/-- What a call of a send wrote on its socket. -/
structure Reply (T : Type) where
  thread : T
  condRecv : Bool
  wrote : List Byte

/-- **The unit in a reply**, as its receiver reads it: a conditional one starts with an `int`, and
`0` means that nothing follows. -/
def Reply.unit? {T : Type} (r : Reply T) : Option (List Byte) :=
  if r.condRecv then
    if r.wrote.take 4 = intBytes 0 then none else some (r.wrote.drop 4)
  else
    some r.wrote

@[simp] theorem Reply.unit?_sent {T : Type} (t : T) (condRecv : Bool) (u : List Byte) :
    (⟨t, condRecv, preamble condRecv ++ u⟩ : Reply T).unit? = some u := by
  cases condRecv <;> rfl

@[simp] theorem Reply.unit?_refused {T : Type} (t : T) :
    (⟨t, true, intBytes 0⟩ : Reply T).unit? = none := rfl

/-- A queue with its threads, and what they have done so far. -/
structure NoCopy (σ T : Type) where
  store : σ
  producer : Thread ℕ
  consumer : T → Thread Unit
  /-- The units the producer committed. -/
  committed : List (List Byte)
  /-- How many puts have returned. -/
  returned : ℕ
  /-- What the service threads replied. -/
  replies : List (Reply T)

/-- A lock section of some thread. -/
inductive NoCopyAct (T : Type)
  /-- The producer writes into its slot. -/
  | fill (off : ℕ) (bs : List Byte)
  /-- A put up to its return or its first wait. -/
  | commit
  /-- A put that was woken tests again. -/
  | retryPut
  /-- A send up to its return or its first wait. -/
  | get (t : T) (condRecv : Bool)
  /-- A send that was woken tests again. -/
  | retryGet (t : T)
  /-- The put wakes up without a signal. -/
  | spuriousPut
  /-- A send wakes up without a signal. -/
  | spuriousGet (t : T)

namespace NoCopy

variable {σ T ι : Type}

/-- `bc_cond_broadcast`. -/
def broadcast (s : NoCopy σ T) : NoCopy σ T :=
  { s with producer := s.producer.wake, consumer := fun t => (s.consumer t).wake }

/-- A put returns. -/
def passed (s : NoCopy σ T) (store : σ) : NoCopy σ T :=
  { s.broadcast with store, producer := .idle, returned := s.returned + 1 }

/-- A put goes to sleep, behind its broadcast. -/
def waits (s : NoCopy σ T) (i : ℕ) : NoCopy σ T := { s.broadcast with producer := .asleep i }

/-- The loop of a put, once through: the broadcast is in both branches. -/
def check (ops : SlotOps σ T) (s : NoCopy σ T) (i : ℕ) : Option (NoCopy σ T) :=
  (ops.putCheck s.store i).map fun
    | some store => s.passed store
    | none => s.waits i

section Serve

variable [DecidableEq T]

/-- A send returns after writing a unit. -/
def sends (s : NoCopy σ T) (t : T) (condRecv : Bool) (store : σ) (wrote : List Byte) :
    NoCopy σ T :=
  { s.broadcast with
    store
    consumer := Function.update s.broadcast.consumer t .idle
    replies := s.replies ++ [⟨t, condRecv, wrote⟩] }

/-- A send returns after a refusal. -/
def refuses (s : NoCopy σ T) (t : T) (condRecv : Bool) (wrote : List Byte) : NoCopy σ T :=
  { s with
    consumer := Function.update s.consumer t .idle
    replies := s.replies ++ [⟨t, condRecv, wrote⟩] }

/-- A send goes to sleep. -/
def sleeps (s : NoCopy σ T) (t : T) : NoCopy σ T :=
  { s with consumer := Function.update s.consumer t (.asleep ()) }

/-- The loop of a send, once through. -/
def serve (ops : SlotOps σ T) (s : NoCopy σ T) (t : T) (condRecv : Bool) : Option (NoCopy σ T) :=
  (ops.send s.store t [] condRecv).map fun
    | .sent store wrote => s.sends t condRecv store wrote
    | .refused wrote => s.refuses t condRecv wrote
    | .wait => s.sleeps t

end Serve

/-- One lock section; `c` is the count every put is called with. -/
def step [DecidableEq T] (ops : SlotOps σ T) (c : ℕ) (s : NoCopy σ T) :
    NoCopyAct T → Option (NoCopy σ T)
  | .fill off bs =>
    match s.producer with
    | .idle => (ops.fill s.store off bs).map fun store => { s with store }
    | _ => none
  | .commit =>
    match s.producer with
    | .idle => do
      let u ← ops.slotUnit s.store
      let (store, i) ← ops.putEnter s.store c
      check ops { s with store, committed := s.committed ++ [u] } i
    | _ => none
  | .retryPut =>
    match s.producer with
    | .woken i => s.check ops i
    | _ => none
  | .get t condRecv =>
    match s.consumer t with
    | .idle => s.serve ops t condRecv
    | _ => none
  | .retryGet t =>
    match s.consumer t with
    | .woken () => s.serve ops t false
    | _ => none
  | .spuriousPut =>
    match s.producer with
    | .asleep i => some { s with producer := .woken i }
    | _ => none
  | .spuriousGet t =>
    match s.consumer t with
    | .asleep () => some { s with consumer := Function.update s.consumer t (.woken ()) }
    | _ => none

/-- **What a lock section can be**: who ran, and what came of it. -/
inductive Section [DecidableEq T] (ops : SlotOps σ T) (c : ℕ) (s : NoCopy σ T) : NoCopy σ T → Prop
  | fill {off bs store} (hp : s.producer = .idle) (hq : ops.fill s.store off bs = some store) :
    Section ops c s { s with store }
  | commit {u store i s'} (hp : s.producer = .idle) (hu : ops.slotUnit s.store = some u)
    (hq : ops.putEnter s.store c = some (store, i))
    (hs : check ops { s with store, committed := s.committed ++ [u] } i = some s') :
    Section ops c s s'
  | retryPut {i s'} (hp : s.producer = .woken i) (hs : s.check ops i = some s') :
    Section ops c s s'
  | serve {t condRecv s'} (hs : s.serve ops t condRecv = some s') : Section ops c s s'
  | spuriousPut {i} (hp : s.producer = .asleep i) :
    Section ops c s { s with producer := .woken i }
  | spuriousGet {t} (hc : s.consumer t = .asleep ()) :
    Section ops c s { s with consumer := Function.update s.consumer t (.woken ()) }

theorem section_of_step [DecidableEq T] {ops : SlotOps σ T} {c : ℕ} {s s' : NoCopy σ T}
    {a : NoCopyAct T} (hs : s.step ops c a = some s') : Section ops c s s' := by
  cases a with
  | fill off bs =>
    match hp : s.producer with
    | .idle =>
      simp only [step, hp, Option.map_eq_some_iff] at hs
      obtain ⟨store, hq, rfl⟩ := hs
      simpa only [hp] using Section.fill hp hq
    | .asleep i | .woken i => simp [step, hp] at hs
  | commit =>
    match hp : s.producer with
    | .idle =>
      simp only [step, hp, Option.bind_eq_bind, Option.bind_eq_some_iff] at hs
      obtain ⟨u, hu, ⟨store, i⟩, hq, hs⟩ := hs
      rw [← hp] at hs
      exact .commit hp hu hq hs
    | .asleep i | .woken i => simp [step, hp] at hs
  | retryPut =>
    match hp : s.producer with
    | .woken i =>
      simp only [step, hp] at hs
      exact .retryPut hp hs
    | .asleep i | .idle => simp [step, hp] at hs
  | get t condRecv =>
    match hc : s.consumer t with
    | .idle =>
      simp only [step, hc] at hs
      exact .serve hs
    | .asleep () | .woken () => simp [step, hc] at hs
  | retryGet t =>
    match hc : s.consumer t with
    | .woken () =>
      simp only [step, hc] at hs
      exact .serve hs
    | .asleep () | .idle => simp [step, hc] at hs
  | spuriousPut =>
    match hp : s.producer with
    | .asleep i =>
      simp only [step, hp, Option.some.injEq] at hs
      exact hs ▸ .spuriousPut hp
    | .idle | .woken i => simp [step, hp] at hs
  | spuriousGet t =>
    match hc : s.consumer t with
    | .asleep () =>
      simp only [step, hc, Option.some.injEq] at hs
      exact hs ▸ .spuriousGet hc
    | .idle | .woken () => simp [step, hc] at hs

/-- A fresh queue, every thread between calls. -/
def start (store : σ) : NoCopy σ T := ⟨store, .idle, fun _ => .idle, [], 0, []⟩

/-- A send of thread `t` finds data ready. -/
def Ready (ops : SlotOps σ T) (s : NoCopy σ T) (t : T) (condRecv : Bool) : Prop :=
  ∃ store wrote, ops.send s.store t [] condRecv = some (.sent store wrote)

/-- **The producer sleeps in its put, no wake-up is pending, and no send can proceed.** -/
def Stuck (ops : SlotOps σ T) (s : NoCopy σ T) : Prop :=
  s.producer.isAsleep = true ∧ ∀ t condRecv, ¬ s.Ready ops t condRecv

/-- The units sent by the threads of cursor `k`, in the order of the sends. -/
def units [DecidableEq ι] (cur : T → ι) (s : NoCopy σ T) (k : ι) : List (List Byte) :=
  s.replies.filterMap fun r => if cur r.thread = k then r.unit? else none

theorem units_sends [DecidableEq ι] [DecidableEq T] (cur : T → ι) (s : NoCopy σ T) (t : T)
    (condRecv : Bool) (store : σ) (u : List Byte) (k : ι) :
    (s.sends t condRecv store (preamble condRecv ++ u)).units cur k
      = s.units cur k ++ if cur t = k then [u] else [] := by
  rw [units, units, sends, List.filterMap_append]
  refine congrArg (List.filterMap _ s.replies ++ ·) ?_
  split <;> rename_i h <;> simp [h]

theorem units_refuses [DecidableEq ι] [DecidableEq T] (cur : T → ι) (s : NoCopy σ T) (t : T)
    (k : ι) : (s.refuses t true (intBytes 0)).units cur k = s.units cur k := by
  rw [units, units, refuses, List.filterMap_append]
  simp

/-- **No section of a thread that may run faults.** -/
structure Faultless [DecidableEq T] (ops : SlotOps σ T) (c : ℕ) (s : NoCopy σ T) : Prop where
  commit : s.producer = .idle → (s.step ops c .commit).isSome = true
  retryPut : ∀ i, s.producer = .woken i → (s.step ops c .retryPut).isSome = true
  get : ∀ t condRecv, s.consumer t = .idle → (s.step ops c (.get t condRecv)).isSome = true
  retryGet : ∀ t, s.consumer t = .woken () → (s.step ops c (.retryGet t)).isSome = true

end NoCopy

/-! ## What a queue owes the log -/

section Refinement

variable {σ T ι : Type} [DecidableEq ι]

/-- **The obligations of a queue**: its store represents a log whose cursors the threads share by
`cur`, and every section does to the log what it is for. -/
structure Refines (ops : SlotOps σ T) (c du : ℕ) (cur : T → ι)
    (Rep : σ → SlotLog (List Byte) ι → Prop) : Prop where
  wf : ∀ {q l}, Rep q l → l.Wf du
  fill : ∀ {q l off bs q'}, Rep q l → l.held = false → ops.fill q off bs = some q' → Rep q' l
  enter : ∀ {q l}, Rep q l → l.held = false → ∃ u q',
    ops.slotUnit q = some u ∧ ops.putEnter q c = some (q', (l.items.length + 1) % du) ∧
      Rep q' (l.commit u)
  check_free : ∀ {q l}, Rep q l → l.held = true → l.Free du →
    ∃ q', ops.putCheck q (l.items.length % du) = some (some q') ∧ Rep q' l.release
  check_wait : ∀ {q l}, Rep q l → l.held = true → ¬ l.Free du →
    ops.putCheck q (l.items.length % du) = some none
  send_ready : ∀ {q l} (t fd condRecv), Rep q l → (h : l.read (cur t) < l.items.length) →
    l.read (cur t) < l.released → ∃ q',
      ops.send q t fd condRecv
        = some (.sent q' (fd ++ preamble condRecv ++ l.items[l.read (cur t)])) ∧
      Rep q' (l.take (cur t))
  send_wait : ∀ {q l} (t fd), Rep q l → l.released ≤ l.read (cur t) →
    ops.send q t fd false = some .wait
  send_refused : ∀ {q l} (t fd), Rep q l → l.released ≤ l.read (cur t) →
    ops.send q t fd true = some (.refused (fd ++ intBytes 0))

/-- What ties a state to its log at every point of a section. -/
structure NoCopy.Core (cur : T → ι) (Rep : σ → SlotLog (List Byte) ι → Prop) (s : NoCopy σ T)
    (l : SlotLog (List Byte) ι) : Prop where
  rep : Rep s.store l
  committed : l.items = s.committed
  returned : s.returned = l.released
  units : ∀ k, s.units cur k = l.items.take (l.read k)

/-- **The invariant between sections.**  A put is inside its call exactly while the log is held,
and whoever sleeps has nothing to wake up for. -/
structure NoCopy.Inv (du : ℕ) (cur : T → ι) (Rep : σ → SlotLog (List Byte) ι → Prop)
    (s : NoCopy σ T) (l : SlotLog (List Byte) ι) : Prop extends NoCopy.Core cur Rep s l where
  held : l.held = s.producer.call?.isSome
  index : ∀ i, s.producer.call? = some i → i = l.items.length % du
  put_asleep : s.producer.isAsleep = true → ¬ l.Free du
  get_asleep : ∀ t, (s.consumer t).isAsleep = true → l.released ≤ l.read (cur t)

namespace Refines

variable {ops : SlotOps σ T} {c du : ℕ} {cur : T → ι} {Rep : σ → SlotLog (List Byte) ι → Prop}
  {s s' : NoCopy σ T} {l : SlotLog (List Byte) ι}

/-- **Once through the loop of a put** that has entered: it returns if the next slot is free, and
sleeps otherwise. -/
theorem check (R : Refines ops c du cur Rep) (h : s.Core cur Rep l) (hheld : l.held = true) :
    ∃ s' l', s.check ops (l.items.length % du) = some s' ∧ s'.Inv du cur Rep l' := by
  by_cases hfree : l.Free du
  · obtain ⟨q', hq', hrep⟩ := R.check_free h.rep hheld hfree
    refine ⟨s.passed q', l.release, by rw [NoCopy.check, hq']; rfl, ?_⟩
    refine ⟨⟨hrep, h.committed, ?_, h.units⟩, rfl, fun i hi => (nomatch hi), fun hs => (nomatch hs),
      fun t ht => ?_⟩
    · change s.returned + 1 = _
      have := (R.wf h.rep).held_ne_nil hheld
      rw [h.returned, SlotLog.released_of_held hheld, SlotLog.released_release]
      omega
    · exact absurd ht (by simp [NoCopy.passed, NoCopy.broadcast])
  · refine ⟨s.waits _, l, by rw [NoCopy.check, R.check_wait h.rep hheld hfree]; rfl, ?_⟩
    refine ⟨⟨h.rep, h.committed, h.returned, h.units⟩, hheld, fun i hi => (Option.some.inj hi).symm,
      fun _ => hfree, fun t ht => ?_⟩
    exact absurd ht (by simp [NoCopy.waits, NoCopy.broadcast])

/-- A put between calls enters, and its unit is committed. -/
theorem commit (R : Refines ops c du cur Rep) (h : s.Inv du cur Rep l)
    (hidle : s.producer = .idle) : ∃ u q' i s' l', ops.slotUnit s.store = some u ∧
      ops.putEnter s.store c = some (q', i) ∧
      NoCopy.check ops { s with store := q', committed := s.committed ++ [u] } i = some s' ∧
      s'.Inv du cur Rep l' := by
  have hheld : l.held = false := by rw [h.held, hidle]; rfl
  obtain ⟨u, q', hu, hq', hrep⟩ := R.enter h.rep hheld
  have hcore : NoCopy.Core cur Rep { s with store := q', committed := s.committed ++ [u] }
      (l.commit u) := by
    refine ⟨hrep, congrArg (· ++ [u]) h.committed, ?_, fun k => ?_⟩
    · rw [SlotLog.released_commit, ← SlotLog.released_of_not_held hheld]
      exact h.returned
    · refine (h.units k).trans ?_
      have hk := ((R.wf h.rep).read_le k).trans SlotLog.released_le
      exact (List.take_append_of_le_length hk).symm
  obtain ⟨s', l', hs', hinv⟩ := R.check hcore rfl
  rw [SlotLog.length_items_commit] at hs'
  exact ⟨u, q', _, s', l', hu, hq', hs', hinv⟩

/-- A put that was woken tests again. -/
theorem retryPut (R : Refines ops c du cur Rep) (h : s.Inv du cur Rep l) {i : ℕ}
    (hwoken : s.producer = .woken i) :
    ∃ s' l', s.check ops i = some s' ∧ s'.Inv du cur Rep l' := by
  have hheld : l.held = true := by rw [h.held, hwoken]; rfl
  obtain rfl := h.index i (by rw [hwoken]; rfl)
  exact R.check h.toCore hheld

variable [DecidableEq T]

/-- **Once through the loop of a send.** -/
theorem serve (R : Refines ops c du cur Rep) (h : s.Inv du cur Rep l) (t : T) (condRecv : Bool) :
    ∃ s' l', s.serve ops t condRecv = some s' ∧ s'.Inv du cur Rep l' := by
  rcases lt_or_ge (l.read (cur t)) l.released with hready | hnot
  · have hlt : l.read (cur t) < l.items.length := hready.trans_le SlotLog.released_le
    obtain ⟨q', hq', hrep⟩ := R.send_ready t [] condRecv h.rep hlt hready
    refine ⟨s.sends t condRecv q' (preamble condRecv ++ _), l.take (cur t),
      by rw [NoCopy.serve, hq']; rfl, ?_⟩
    refine ⟨⟨hrep, h.committed, h.returned, fun k => ?_⟩, ?_, ?_, ?_, fun u hu => ?_⟩
    · rw [NoCopy.units_sends, h.units]
      rcases eq_or_ne (cur t) k with rfl | hne
      · rw [if_pos rfl, SlotLog.items_take, SlotLog.read_take_self, List.take_add_one,
          List.getElem?_eq_getElem hlt]
        rfl
      · rw [if_neg hne, SlotLog.read_take_of_ne hne.symm, List.append_nil]
        rfl
    · simpa [NoCopy.sends, NoCopy.broadcast] using h.held
    · simpa [NoCopy.sends, NoCopy.broadcast] using h.index
    · simp [NoCopy.sends, NoCopy.broadcast]
    · rcases eq_or_ne u t with rfl | hne
      · simp [NoCopy.sends] at hu
      · simp [hne, NoCopy.sends, NoCopy.broadcast] at hu
  · cases condRecv with
    | false =>
      refine ⟨s.sleeps t, l, by rw [NoCopy.serve, R.send_wait t [] h.rep hnot]; rfl, ?_⟩
      refine ⟨⟨h.rep, h.committed, h.returned, h.units⟩, h.held, h.index, h.put_asleep,
        fun u hu => ?_⟩
      rcases eq_or_ne u t with rfl | hne
      · exact hnot
      · exact h.get_asleep u (by simpa [hne, NoCopy.sleeps] using hu)
    | true =>
      refine ⟨s.refuses t true (intBytes 0), l,
        by rw [NoCopy.serve, R.send_refused t [] h.rep hnot]; rfl, ?_⟩
      refine ⟨⟨h.rep, h.committed, h.returned, fun k => ?_⟩, h.held, h.index, h.put_asleep,
        fun u hu => ?_⟩
      · rw [NoCopy.units_refuses]
        exact h.units k
      · rcases eq_or_ne u t with rfl | hne
        · simp [NoCopy.refuses] at hu
        · exact h.get_asleep u (by simpa [hne, NoCopy.refuses] using hu)

theorem faultless (R : Refines ops c du cur Rep) (h : s.Inv du cur Rep l) :
    s.Faultless ops c where
  commit hidle := by
    obtain ⟨u, q', i, s', _, hu, hq', hs', -⟩ := R.commit h hidle
    simp only [NoCopy.step, hidle, hu, hq', Option.bind_eq_bind, Option.bind_some]
    rw [← hidle, hs', Option.isSome_some]
  retryPut i hwoken := by
    obtain ⟨s', _, hs', -⟩ := R.retryPut h hwoken
    simp only [NoCopy.step, hwoken, hs', Option.isSome_some]
  get t condRecv hidle := by
    obtain ⟨s', _, hs', -⟩ := R.serve h t condRecv
    simp only [NoCopy.step, hidle, hs', Option.isSome_some]
  retryGet t hwoken := by
    obtain ⟨s', _, hs', -⟩ := R.serve h t false
    simp only [NoCopy.step, hwoken, hs', Option.isSome_some]

/-- **Every section keeps the invariant.** -/
theorem step (R : Refines ops c du cur Rep) (h : s.Inv du cur Rep l)
    (hs : NoCopy.Section ops c s s') : ∃ l, s'.Inv du cur Rep l := by
  cases hs with
  | fill hp hq =>
    have hheld : l.held = false := by rw [h.held, hp]; rfl
    exact ⟨l, ⟨R.fill h.rep hheld hq, h.committed, h.returned, h.units⟩, h.held, h.index,
      h.put_asleep, h.get_asleep⟩
  | commit hp hu hq hs =>
    obtain ⟨u', q', i, t, l', hu', hq', hs', hinv⟩ := R.commit h hp
    obtain rfl := Option.some.inj (hu.symm.trans hu')
    obtain ⟨rfl, rfl⟩ := Prod.mk.inj (Option.some.inj (hq.symm.trans hq'))
    exact ⟨l', Option.some.inj (hs'.symm.trans hs) ▸ hinv⟩
  | retryPut hp hs =>
    obtain ⟨t, l', hs', hinv⟩ := R.retryPut h hp
    exact ⟨l', Option.some.inj (hs'.symm.trans hs) ▸ hinv⟩
  | serve hs =>
    obtain ⟨t, l', hs', hinv⟩ := R.serve h _ _
    exact ⟨l', Option.some.inj (hs'.symm.trans hs) ▸ hinv⟩
  | spuriousPut hp =>
    refine ⟨l, ⟨h.rep, h.committed, h.returned, h.units⟩, ?_, ?_, fun hs => (nomatch hs),
      h.get_asleep⟩
    · rw [h.held, hp]
      rfl
    · exact fun j hj => h.index j (by rw [hp]; exact hj)
  | @spuriousGet t hc =>
    refine ⟨l, ⟨h.rep, h.committed, h.returned, h.units⟩, h.held, h.index, h.put_asleep,
      fun u hu => ?_⟩
    rcases eq_or_ne u t with rfl | hne
    · simp at hu
    · exact h.get_asleep u (by simpa [hne] using hu)

/-- **Every run keeps the invariant**, if the fresh queue represents the empty log. -/
theorem reaches (R : Refines ops c du cur Rep) {q : σ} (hq : Rep q (SlotLog.empty _ ι))
    (h : Reaches (NoCopy.step ops c) (NoCopy.start q) s) : ∃ l, s.Inv du cur Rep l :=
  h.invariant (P := fun s => ∃ l, NoCopy.Inv du cur Rep s l)
    (fun _ _ _ ⟨_, hx⟩ hs => R.step hx (NoCopy.section_of_step hs))
    ⟨_, ⟨hq, rfl, rfl, fun _ => rfl⟩, rfl, fun _ hi => (nomatch hi),
      fun hs => (nomatch hs), fun _ hs => (nomatch hs)⟩

omit [DecidableEq T]

/-- A send finds data ready exactly when its cursor is behind the released units. -/
theorem ready_iff (R : Refines ops c du cur Rep) (h : s.Inv du cur Rep l) (t : T)
    (condRecv : Bool) :
    s.Ready ops t condRecv ↔ (s.units cur (cur t)).length < s.returned := by
  have hle : l.read (cur t) ≤ l.items.length :=
    ((R.wf h.rep).read_le _).trans SlotLog.released_le
  rw [h.units, h.returned, List.length_take_of_le hle, NoCopy.Ready]
  constructor
  · rintro ⟨q', w, hsent⟩
    by_contra hnot
    cases condRecv with
    | false =>
      rw [R.send_wait t [] h.rep (not_lt.mp hnot)] at hsent
      exact nomatch hsent
    | true =>
      rw [R.send_refused t [] h.rep (not_lt.mp hnot)] at hsent
      exact nomatch hsent
  · intro hready
    obtain ⟨q', hq', -⟩ := R.send_ready t [] condRecv h.rep
      (hready.trans_le SlotLog.released_le) hready
    exact ⟨q', _, hq'⟩

/-- Each cursor's units are a prefix of the committed ones. -/
theorem units_prefix (h : s.Inv du cur Rep l) (k : ι) : s.units cur k <+: s.committed := by
  rw [h.units, ← h.committed]
  exact List.take_prefix _ _

end Refines

end Refinement

/-! ## Invariants of the store -/

section Store

variable {σ T : Type} [DecidableEq T] {ops : SlotOps σ T} {c : ℕ} {I : Option ℕ → σ → Prop}

/-- A property of the store, and of the index a put is waiting for, that every section keeps. -/
structure StoreInvariant (ops : SlotOps σ T) (c : ℕ) (I : Option ℕ → σ → Prop) : Prop where
  fill : ∀ {q off bs q'}, I none q → ops.fill q off bs = some q' → I none q'
  enter : ∀ {q q' i}, I none q → ops.putEnter q c = some (q', i) → I (some i) q'
  check : ∀ {q q' i}, I (some i) q → ops.putCheck q i = some (some q') → I none q'
  send : ∀ {h q t fd condRecv q' wrote}, I h q →
    ops.send q t fd condRecv = some (.sent q' wrote) → I h q'

/-- The invariant, and that a sleeping put has nothing to wake up for. -/
structure NoCopy.Kept (ops : SlotOps σ T) (I : Option ℕ → σ → Prop) (s : NoCopy σ T) : Prop where
  store : I s.producer.call? s.store
  asleep : ∀ i, s.producer = .asleep i → ops.putCheck s.store i = some none

namespace StoreInvariant

variable (hI : StoreInvariant ops c I) {s s' : NoCopy σ T}

include hI

omit [DecidableEq T] in
theorem check_kept {i : ℕ} (h : I (some i) s.store) (hs : s.check ops i = some s') :
    s'.Kept ops I := by
  obtain ⟨r, hr, rfl⟩ := Option.map_eq_some_iff.mp hs
  cases r with
  | some q' => exact ⟨hI.check h hr, fun j hj => (nomatch hj)⟩
  | none =>
    refine ⟨h, fun j hj => ?_⟩
    obtain rfl : i = j := Thread.asleep.inj hj
    exact hr

theorem serve_kept (h : s.Kept ops I) {t : T} {condRecv : Bool}
    (hs : s.serve ops t condRecv = some s') : s'.Kept ops I := by
  obtain ⟨r, hr, rfl⟩ := Option.map_eq_some_iff.mp hs
  cases r with
  | sent q' wrote =>
    refine ⟨?_, fun j hj => ?_⟩
    · change I s.producer.wake.call? q'
      rw [Thread.call?_wake]
      exact hI.send h.store hr
    · exact absurd (congrArg Thread.isAsleep hj) (by simp [NoCopy.sends, NoCopy.broadcast])
  | refused wrote => exact ⟨h.store, h.asleep⟩
  | wait => exact ⟨h.store, h.asleep⟩

theorem step_kept (h : s.Kept ops I) (hs : NoCopy.Section ops c s s') : s'.Kept ops I := by
  have hstore := h.store
  cases hs with
  | fill hp hq =>
    refine ⟨?_, fun j hj => (nomatch hp.symm.trans hj)⟩
    rw [hp] at hstore ⊢
    exact hI.fill hstore hq
  | commit hp _ hq hs =>
    rw [hp] at hstore
    exact hI.check_kept (hI.enter hstore hq) hs
  | retryPut hp hs =>
    rw [hp] at hstore
    exact hI.check_kept hstore hs
  | serve hs => exact hI.serve_kept h hs
  | spuriousPut hp =>
    rw [hp] at hstore
    exact ⟨hstore, fun j hj => (nomatch hj)⟩
  | spuriousGet _ => exact ⟨hstore, h.asleep⟩

/-- **What every section keeps, every run keeps.** -/
theorem reaches {q : σ} (hq : I none q) (h : Reaches (NoCopy.step ops c) (NoCopy.start q) s) :
    s.Kept ops I :=
  h.invariant (P := fun s => NoCopy.Kept ops I s)
    (fun _ _ _ hx hs => hI.step_kept hx (NoCopy.section_of_step hs))
    ⟨hq, fun _ hi => (nomatch hi)⟩

end StoreInvariant

end Store

/-! ## One queue seen as another -/

section Views

variable {σ σ' T T' ι : Type} {ops : SlotOps σ T} {ops' : SlotOps σ' T'} {c c' : ℕ} {cur : T → T'}
  {view : σ → σ'}

/-- **Every section of one queue is that of another**, under `view` of the store and `cur` of the
thread; `c` and `c'` are the counts their puts are called with. -/
structure Views (ops : SlotOps σ T) (c : ℕ) (ops' : SlotOps σ' T') (c' : ℕ) (cur : T → T')
    (view : σ → σ') : Prop where
  slotUnit : ∀ q, ops.slotUnit q = ops'.slotUnit (view q)
  fill : ∀ q off bs, (ops.fill q off bs).map view = ops'.fill (view q) off bs
  putEnter : ∀ q, (ops.putEnter q c).map (Prod.map view id) = ops'.putEnter (view q) c'
  putCheck : ∀ q i, (ops.putCheck q i).map (Option.map view) = ops'.putCheck (view q) i
  send : ∀ q t fd condRecv,
    (ops.send q t fd condRecv).map (SendOutcome.map view) = ops'.send (view q) (cur t) fd condRecv

namespace Views

theorem refl (ops : SlotOps σ T) (c : ℕ) : Views ops c ops c id id where
  slotUnit _ := rfl
  fill _ _ _ := Option.map_id'
  putEnter _ := Option.map_id'
  putCheck _ _ := by simp
  send q t fd condRecv := by
    have hid : SendOutcome.map (id : σ → σ) = id := funext fun o => by cases o <;> rfl
    rw [hid, Option.map_id]
    rfl

variable (V : Views ops c ops' c' cur view)

include V

theorem of_sent {q : σ} {t : T} {fd : List Byte} {condRecv : Bool} {q' : σ} {wrote : List Byte}
    (h : ops.send q t fd condRecv = some (.sent q' wrote)) :
    ops'.send (view q) (cur t) fd condRecv = some (.sent (view q') wrote) := by
  rw [← V.send, h]
  rfl

theorem exists_sent {q : σ} {t : T} {fd : List Byte} {condRecv : Bool} {r : σ'}
    {wrote : List Byte} (h : ops'.send (view q) (cur t) fd condRecv = some (.sent r wrote)) :
    ∃ q', ops.send q t fd condRecv = some (.sent q' wrote) ∧ view q' = r := by
  rw [← V.send, Option.map_eq_some_iff] at h
  obtain ⟨o, ho, hmap⟩ := h
  cases o with
  | sent q' w =>
    obtain ⟨rfl, rfl⟩ := SendOutcome.sent.inj hmap
    exact ⟨q', ho, rfl⟩
  | refused _ => exact nomatch hmap
  | wait => exact nomatch hmap

/-- What the other queue's sections keep, this one's keep. -/
theorem storeInvariant {I : Option ℕ → σ' → Prop} (hI : StoreInvariant ops' c' I) :
    StoreInvariant ops c fun h q => I h (view q) where
  fill {q off bs q'} h hq := hI.fill h (by rw [← V.fill q off bs, hq]; rfl)
  enter {q q' i} h hq := hI.enter h (by rw [← V.putEnter q, hq]; rfl)
  check {q q' i} h hq := hI.check h (by rw [← V.putCheck q i, hq]; rfl)
  send h hq := hI.send h (V.of_sent hq)

/-- What the other queue refines, this one refines. -/
theorem refines [DecidableEq ι] {cur' : T' → ι} {du : ℕ}
    {Rep : σ' → SlotLog (List Byte) ι → Prop} (R : Refines ops' c' du cur' Rep) :
    Refines ops c du (cur' ∘ cur) fun q l => Rep (view q) l where
  wf h := R.wf h
  fill {q l off bs q'} h hheld hq := R.fill h hheld (by rw [← V.fill q off bs, hq]; rfl)
  enter {q l} h hheld := by
    obtain ⟨u, r, hu, hr, hrep⟩ := R.enter h hheld
    rw [← V.putEnter, Option.map_eq_some_iff] at hr
    obtain ⟨⟨q', i⟩, hq', heq⟩ := hr
    obtain ⟨rfl, rfl⟩ := Prod.mk.inj heq
    exact ⟨u, q', (V.slotUnit q).trans hu, hq', hrep⟩
  check_free {q l} h hheld hfree := by
    obtain ⟨r, hr, hrep⟩ := R.check_free h hheld hfree
    rw [← V.putCheck, Option.map_eq_some_iff] at hr
    obtain ⟨o, ho, heq⟩ := hr
    obtain ⟨q', rfl, rfl⟩ := Option.map_eq_some_iff.mp heq
    exact ⟨q', ho, hrep⟩
  check_wait {q l} h hheld hfree := by
    have hr := R.check_wait h hheld hfree
    rw [← V.putCheck, Option.map_eq_some_iff] at hr
    obtain ⟨o, ho, heq⟩ := hr
    rw [ho, Option.map_eq_none_iff.mp heq]
  send_ready {q l} t fd condRecv h hlt hk := by
    obtain ⟨r, hr, hrep⟩ := R.send_ready (cur t) fd condRecv h hlt hk
    obtain ⟨q', hq', rfl⟩ := V.exists_sent hr
    exact ⟨q', hq', hrep⟩
  send_wait {q l} t fd h hk := by
    have hr := R.send_wait (cur t) fd h hk
    rw [← V.send, Option.map_eq_some_iff] at hr
    obtain ⟨o, ho, heq⟩ := hr
    cases o with
    | wait => exact ho
    | sent _ _ | refused _ => exact nomatch heq
  send_refused {q l} t fd h hk := by
    have hr := R.send_refused (cur t) fd h hk
    rw [← V.send, Option.map_eq_some_iff] at hr
    obtain ⟨o, ho, heq⟩ := hr
    cases o with
    | refused _ =>
      exact ho.trans (congrArg (some ∘ SendOutcome.refused) (SendOutcome.refused.inj heq))
    | sent _ _ | wait => exact nomatch heq

end Views

end Views

/-! ## Puts that do not wait -/

section Puts

variable {σ T σ' T' : Type} {ops : SlotOps σ T} {ops' : SlotOps σ' T'} {c c' off i : ℕ}
  {bs u v : List Byte} {q q₁ q₂ : σ} {t : T} {condRecv : Bool} {cur : T → T'} {view : σ → σ'}

/-- The producer fills its slot with a unit, and its put does not wait. -/
def SlotOps.Puts (ops : SlotOps σ T) (c : ℕ) (q : σ) (u : List Byte) (q' : σ) : Prop :=
  ∃ q₁ q₂ i, ops.fill q 0 u = some q₁ ∧ ops.slotUnit q₁ = some u ∧
    ops.putEnter q₁ c = some (q₂, i) ∧ ops.putCheck q₂ i = some (some q')

theorem Views.puts (V : Views ops c ops' c' cur view) {r : σ'} (h : ops'.Puts c' (view q) u r) :
    ∃ q', ops.Puts c q u q' ∧ view q' = r := by
  obtain ⟨_, _, i, hfill, hunit, henter, hcheck⟩ := h
  rw [← V.fill] at hfill
  obtain ⟨q₁, hq₁, rfl⟩ := Option.map_eq_some_iff.mp hfill
  rw [← V.putEnter] at henter
  obtain ⟨⟨q₂, j⟩, hq₂, heq⟩ := Option.map_eq_some_iff.mp henter
  obtain ⟨rfl, rfl⟩ := Prod.mk.inj heq
  rw [← V.putCheck] at hcheck
  obtain ⟨o, ho, heq⟩ := Option.map_eq_some_iff.mp hcheck
  obtain ⟨q', rfl, rfl⟩ := Option.map_eq_some_iff.mp heq
  exact ⟨q', ⟨q₁, q₂, j, hq₁, (V.slotUnit q₁).trans hunit, hq₂, ho⟩, rfl⟩

variable [DecidableEq T]

theorem NoCopy.step_fill {s : NoCopy σ T} (hidle : s.producer = .idle)
    (hfill : ops.fill s.store off bs = some q) :
    s.step ops c (.fill off bs) = some { s with store := q } := by
  simp only [step, hidle, hfill, Option.map_some]

theorem NoCopy.step_commit {s : NoCopy σ T} (hidle : s.producer = .idle)
    (hu : ops.slotUnit s.store = some u) (henter : ops.putEnter s.store c = some (q₁, i))
    (hcheck : ops.putCheck q₁ i = some (some q₂)) :
    s.step ops c .commit =
      some (({ s with store := q₁, committed := s.committed ++ [u] } : NoCopy σ T).passed q₂) := by
  simp only [step, hidle, hu, henter, check, hcheck, Option.bind_eq_bind, Option.bind_some,
    Option.map_some]

theorem NoCopy.step_get {s : NoCopy σ T} (hidle : s.consumer t = .idle)
    (hsend : ops.send s.store t [] condRecv = some (.sent q u)) :
    s.step ops c (.get t condRecv) = some (s.sends t condRecv q u) := by
  simp only [step, hidle, serve, hsend, Option.map_some]

/-- **Two units are committed, and it is the second one that is sent.** -/
theorem SlotOps.Puts.overtaken (h : ops.Puts c q u q₁) (h' : ops.Puts c q₁ v q₂)
    (hsend : ∃ q₃, ops.send q₂ t [] false = some (.sent q₃ v)) :
    ∃ s, Reaches (NoCopy.step ops c) (NoCopy.start q) s ∧ s.replies = [⟨t, false, v⟩] ∧
      s.committed = [u, v] := by
  obtain ⟨_, _, _, hfill, hunit, henter, hcheck⟩ := h
  obtain ⟨_, _, _, hfill', hunit', henter', hcheck'⟩ := h'
  obtain ⟨_, hsend⟩ := hsend
  have hrun : Reaches (NoCopy.step ops c) (NoCopy.start q) _ :=
    .single (NoCopy.step_fill rfl hfill)
  replace hrun := hrun.tail (NoCopy.step_commit rfl hunit henter hcheck)
  replace hrun := hrun.tail (NoCopy.step_fill rfl hfill')
  replace hrun := hrun.tail (NoCopy.step_commit rfl hunit' henter' hcheck')
  exact ⟨_, hrun.tail (NoCopy.step_get rfl hsend), rfl, rfl⟩

end Puts

end Libdsys
