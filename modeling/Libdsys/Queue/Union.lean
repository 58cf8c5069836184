import Libdsys.Queue.Farmn
import Libdsys.Branch.Calls

/-!
# Queue/Union — the queue of a channel

`bc_queue_t` is a union; the role of a channel says which of the queues it is.  A memory-copy queue
is one ring buffer or one for each consumer, a no-copy queue has its slots.

* `Queue.Of` — what is known of the queue of a channel, whatever was done to it.
* `Queue.Of.put` … `Queue.Of.send` — and what each lock section keeps.
-/

open Machinery

namespace Libdsys

variable {P : Type}

/-! ## The queues and their lock sections -/

/-- `bc_queue_t`, with the variable pointers of the links, by consumer and tag, where it has any. -/
inductive Queue (P : Type)
  | mc121 (q : Mc121)
  /-- The list of queues, by consumer. -/
  | mc12m (qs : List (P × Mc121))
  | nmc12m (s : Linked (P × ℕ))
  | farmn (q : Farmn)

/-- What freshly allocated memory holds: blocks by process, channel and queue, and counters. -/
structure Fresh (P : Type) where
  mem : P → ℕ → ℕ → ℕ → Byte
  rc : P → ℕ → ℕ → ℕ

/-- `du * bytes`, `du` an `int` that was `unsigned`. -/
def unitsSize (du bytes : ℕ) : ℕ :=
  sizeMul (if du < 2 ^ 31 then du else 2 ^ 64 - 2 ^ 32 + du) bytes

/-- The queues that copy memory. -/
def Qtype.copies : Qtype → Bool
  | .mc121 | .mc12m => true
  | _ => false

/-- The channel's queue copies memory. -/
def SinkChan.copies (ch : SinkChan P) : Bool := ch.role.c.any (·.2.copies)

/-- **The block has room for the units** of a channel without memory copy: there are some, as many
as an `int` can say, and their bytes are as many as a `size_t` can. -/
def SinkChan.fits (ch : SinkChan P) : Bool :=
  ch.copies || (0 < ch.dunits ∧ ch.dunits < 2 ^ 31 ∧ ch.dunits * ch.dtype.bytes < 2 ^ 64)

theorem SinkChan.fits_iff {ch : SinkChan P} (hcopies : ch.copies = false) : ch.fits ↔
    0 < ch.dunits ∧ ch.dunits < 2 ^ 31 ∧ ch.dunits * ch.dtype.bytes < 2 ^ 64 := by
  rw [fits, hcopies, Bool.false_or, decide_eq_true_iff]

/-- The test of `__bc_internal_nmc12m_send`. -/
def Nmc12m.ready (q : Nmc12m) (vptr : Vptr) : Bool :=
  q.rc.getD vptr.rcidx 0 ≠ 0 ∧ q.vptr.rcidx ≠ vptr.rcidx

namespace Queue

/-- `bc_qiface[qtype].c` for channel `c` of process `p`, by its role.  (A sink without memory copy
has fewer than `2 ^ 31` units: as a negative `int`, their number asks for more counters than there
is memory for.) -/
def create (fresh : Fresh P) (p : P) (c : ℕ) (ch : SinkChan P) : Queue P :=
  match ch.role with
  | .replicate | .spread => .mc12m (ch.plist.mapIdx fun i q =>
      (q, mc121Create (fresh.mem p c i) (unitsSize ch.dunits ch.dtype.bytes)))
  | .pipen | .replicaten => .nmc12m
      (internalNmc12mCreate (fresh.mem p c 0) (fresh.rc p c) ch.dunits ch.dtype.bytes,
        fun _ => linkVptr)
  | .farm | .farmn => .farmn
      (internalFarmnQCreate (fresh.mem p c 0) (fresh.rc p c) ch.dunits ch.dtype.bytes)
  | _ => .mc121 (mc121Create (fresh.mem p c 0) (unitsSize ch.dunits ch.dtype.bytes))

/-- The `i`-th ring buffer. -/
def ring? : Queue P → ℕ → Option Mc121
  | mc121 q, 0 => some q
  | mc12m qs, i => qs[i]?.map Prod.snd
  | _, _ => none

def setRing : Queue P → ℕ → Mc121 → Queue P
  | mc121 _, 0, q => mc121 q
  | mc12m qs, i, q => mc12m (qs.modify i fun (tag, _) => (tag, q))
  | queue, _, _ => queue

/-- The ring buffer of a consumer: the first of its queues. -/
def node [DecidableEq P] (queue : Queue P) (remote : P) : ℕ :=
  match queue with
  | mc12m qs => (qs.map Prod.fst).idxOf remote
  | _ => 0

/-- A turn of the loop of a memory-copy put that is granted. -/
def put (queue : Queue P) (i : ℕ) (bs : List Byte) : Option (Queue P) := do
  let q ← queue.ring? i
  let (ret, q) ← putqMc121 q bs bs.length
  if ret = 0 then some (queue.setRing i q) else none

/-- A no-copy put up to its loop. -/
def putEnter [DecidableEq P] (queue : Queue P) (count : ℕ) : Option (Queue P × ℕ) :=
  match queue with
  | nmc12m s => ((nmc12mOps _).putEnter s count).map fun (s, i) => (nmc12m s, i)
  | farmn q => (farmnQPutEnter q count).map fun (q, i) => (farmn q, i)
  | _ => none

/-- The loop of a no-copy put, once through. -/
def putCheck [DecidableEq P] (queue : Queue P) (i : ℕ) : Option (Option (Queue P)) :=
  match queue with
  | nmc12m s => ((nmc12mOps _).putCheck s i).map (·.map nmc12m)
  | farmn q => (farmnQPutCheck q i).map (·.map farmn)
  | _ => none

/-- A store through the producer's variable pointer. -/
def fill [DecidableEq P] (queue : Queue P) (off : ℕ) (bs : List Byte) : Option (Queue P) :=
  match queue with
  | nmc12m s => ((nmc12mOps _).fill s off bs).map nmc12m
  | farmn q => (farmnFill q off bs).map farmn
  | _ => none

/-- One turn of the loop of `__bc_mc121_send` and `__bc_s_mc12m`. -/
def ringSend (q : Mc121) (bytes : ℕ) (condRecv : Bool) : Option (SendOutcome Mc121) :=
  (sendqMc121 q [] bytes condRecv).map fun (ret, q, fd) =>
    if ret = 0 then .sent q fd
    else if condRecv then .refused (sendSorryMessage fd)
    else .wait

/-- `bc_qiface[qtype].s` or `sn`, one lock section, for a link of `remote`.  A list of queues
without one for `remote` is left as it is, and nothing is written. -/
def send [DecidableEq P] (queue : Queue P) (remote : P) (tag bytes : ℕ) (condRecv : Bool) :
    Option (SendOutcome (Queue P)) :=
  match queue with
  | mc121 _ | mc12m _ =>
    match queue.ring? (queue.node remote) with
    | none => some (.refused [])
    | some q => (ringSend q bytes condRecv).map (·.map (queue.setRing (queue.node remote)))
  | nmc12m s => ((nmc12mOps _).send s (remote, tag) [] condRecv).map (·.map nmc12m)
  | farmn q => (farmnQSend q [] condRecv).map (·.map farmn)

/-! ## What is known of it -/

def qtype : Queue P → Qtype
  | mc121 _ => .mc121
  | mc12m _ => .mc12m
  | nmc12m _ => .nmc12m
  | farmn _ => .farmn

/-- **A queue of channel `ch`**: it is of the type its role asks for; its ring buffers are well
formed, and there is one for each consumer where there are several; a slot holds a unit. -/
def Of (ch : SinkChan P) (queue : Queue P) : Prop :=
  (∀ x, ch.role.c = some x → queue.qtype = x.2) ∧
    match queue with
    | mc121 q => q.Wf
    | mc12m qs => qs.map Prod.fst = ch.plist ∧ ∀ x ∈ qs, x.2.Wf
    | nmc12m s => s.1.size = ch.dtype.bytes
    | farmn q => q.size = ch.dtype.bytes

variable {queue queue' : Queue P} {ch : SinkChan P} {i : ℕ} {q : Mc121}

theorem of_create (fresh : Fresh P) (p : P) (c : ℕ) (ch : SinkChan P) :
    (create fresh p c ch).Of ch := by
  have hlist : (ch.plist.mapIdx fun i q =>
      (q, mc121Create (fresh.mem p c i) (unitsSize ch.dunits ch.dtype.bytes))).map Prod.fst
        = ch.plist ∧ ∀ x ∈ ch.plist.mapIdx fun i q =>
      (q, mc121Create (fresh.mem p c i) (unitsSize ch.dunits ch.dtype.bytes)), x.2.Wf := by
    refine ⟨?_, fun x hx => ?_⟩
    · rw [List.mapIdx_eq_zipIdx_map, List.map_map]
      exact List.zipIdx_map_fst _ _
    · obtain ⟨i, hi, rfl⟩ := List.mem_mapIdx.mp hx
      exact Mc121.wf_mc121Create _ _
  obtain ⟨role, plist, dtype, dunits⟩ := ch
  constructor
  · intro x hx
    cases role <;> cases hx <;> rfl
  · cases role
    case replicate | spread => exact hlist
    case pipen | replicaten | farm | farmn => exact rfl
    all_goals exact Mc121.wf_mc121Create _ _

/-- **Memory is copied.** -/
def copies : Queue P → Bool
  | mc121 _ => true
  | mc12m _ => true
  | nmc12m _ => false
  | farmn _ => false

/-! ### Ring buffers -/

theorem Of.ring_wf (h : queue.Of ch) (hq : queue.ring? i = some q) : q.Wf := by
  cases queue with
  | mc121 q' =>
    cases i with
    | zero => exact Option.some.inj hq ▸ h.2
    | succ i => simp [ring?] at hq
  | mc12m qs =>
    obtain ⟨x, hx, rfl⟩ := Option.map_eq_some_iff.mp hq
    exact h.2.2 x (List.mem_of_getElem? hx)
  | nmc12m s => simp [ring?] at hq
  | farmn q' => simp [ring?] at hq

theorem Of.setRing (h : queue.Of ch) (hq : q.Wf) : (queue.setRing i q).Of ch := by
  cases queue with
  | mc121 q' =>
    cases i with
    | zero => exact ⟨h.1, hq⟩
    | succ i => exact h
  | mc12m qs =>
    refine ⟨h.1, ?_, fun x hx => ?_⟩
    · rw [← h.2.1]
      refine List.ext_getElem? fun j => ?_
      rw [List.getElem?_map, List.getElem?_map, List.getElem?_modify]
      split <;> cases qs[j]? <;> rfl
    · obtain ⟨j, hj⟩ := List.mem_iff_getElem?.mp hx
      rw [List.getElem?_modify] at hj
      obtain ⟨y, hy, rfl⟩ := Option.map_eq_some_iff.mp hj
      split
      · exact hq
      · exact h.2.2 y (List.mem_of_getElem? hy)
  | nmc12m s => exact h
  | farmn q' => exact h

theorem ring?_setRing {j : ℕ} {q' : Mc121} (h : queue.ring? i = some q) :
    (queue.setRing i q').ring? j = if j = i then some q' else queue.ring? j := by
  cases queue with
  | mc121 r =>
    cases i with
    | zero => cases j <;> simp [Queue.setRing, ring?]
    | succ i => simp [ring?] at h
  | mc12m qs =>
    obtain ⟨x, hx, rfl⟩ := Option.map_eq_some_iff.mp h
    simp only [Queue.setRing, ring?, List.getElem?_modify]
    rcases eq_or_ne j i with rfl | hne
    · simp [hx]
    · simp only [hne.symm, hne, if_false]
      cases qs[j]? <;> rfl
  | nmc12m s => simp [ring?] at h
  | farmn r => simp [ring?] at h

/-- **A put that is granted** appends to its ring buffer, which has room. -/
theorem Of.put_eq_some (h : queue.Of ch) {bs : List Byte} (hs : queue.put i bs = some queue') :
    ∃ q, queue.ring? i = some q ∧ q.bytesInbuff + bs.length ≤ q.size ∧
      queue' = queue.setRing i (q.pushed bs) := by
  simp only [put, Option.bind_eq_bind, Option.bind_eq_some_iff] at hs
  obtain ⟨q, hq, ⟨ret, q'⟩, hput, hs⟩ := hs
  have hwf := h.ring_wf hq
  have hin := hwf.inbuff
  rw [putqMc121_eq hwf, Option.some.injEq] at hput
  split at hput
  · obtain ⟨rfl, rfl⟩ := Prod.mk.inj hput
    simp at hs
  · obtain ⟨rfl, rfl⟩ := Prod.mk.inj hput
    exact ⟨q, hq, by omega, (Option.some.inj hs).symm⟩

/-- A turn of the loop of a send. -/
theorem ringSend_eq (h : q.Wf) (bytes : ℕ) (condRecv : Bool) : ringSend q bytes condRecv =
    some (if q.bytesInbuff < bytes then (if condRecv then .refused (intBytes 0) else .wait)
      else .sent (q.popped bytes) (preamble condRecv ++ q.contents.take bytes)) := by
  rw [ringSend, sendqMc121_eq h]
  by_cases hlt : q.bytesInbuff < bytes
  · simp only [if_pos hlt, Option.map_some]
    cases condRecv <;> rfl
  · simp only [if_neg hlt, Option.map_some]
    rfl

theorem Of.put (h : queue.Of ch) {bs : List Byte} (hs : queue.put i bs = some queue') :
    queue'.Of ch := by
  obtain ⟨q, hq, hfit, rfl⟩ := h.put_eq_some hs
  exact h.setRing ((h.ring_wf hq).pushed hfit)

variable [DecidableEq P] {remote : P} {tag bytes : ℕ} {condRecv : Bool}

/-- **A send from a ring buffer.** -/
theorem Of.send_eq (h : queue.Of ch) (hq : queue.ring? (queue.node remote) = some q) :
    queue.send remote tag bytes condRecv = some (
      if q.bytesInbuff < bytes then (if condRecv then .refused (intBytes 0) else .wait)
      else .sent (queue.setRing (queue.node remote) (q.popped bytes))
        (preamble condRecv ++ q.contents.take bytes)) := by
  have hwf := h.ring_wf hq
  cases queue with
  | mc121 r | mc12m qs =>
    simp only [send, hq, ringSend_eq hwf, Option.map_some]
    split
    · split <;> rfl
    · rfl
  | nmc12m s => simp [ring?] at hq
  | farmn r => simp [ring?] at hq

/-- A consumer of a memory-copy channel has its ring buffer. -/
theorem Of.exists_ring (h : queue.Of ch) (hcopies : queue.copies = true)
    (hmem : remote ∈ ch.plist) : ∃ q, queue.ring? (queue.node remote) = some q := by
  cases queue with
  | mc121 q => exact ⟨q, rfl⟩
  | mc12m qs =>
    have hlt := List.idxOf_lt_length_of_mem (h.2.1.symm ▸ hmem)
    rw [List.length_map] at hlt
    exact ⟨_, by rw [ring?, node, List.getElem?_eq_getElem hlt, Option.map_some]⟩
  | nmc12m s => cases hcopies
  | farmn q => cases hcopies

/-! ### Slots -/

theorem Of.putEnter (h : queue.Of ch) {count : ℕ}
    (hs : queue.putEnter count = some (queue', i)) : queue'.Of ch := by
  cases queue with
  | mc121 q => cases hs
  | mc12m qs => cases hs
  | nmc12m s =>
    simp only [Queue.putEnter, nmc12mOps, nmc12mPutEnter, Option.map_map, Option.map_eq_some_iff,
      Option.ite_none_right_eq_some] at hs
    obtain ⟨x, ⟨-, hx⟩, hs⟩ := hs
    obtain rfl := Option.some.inj hx
    obtain ⟨rfl, -⟩ := Prod.mk.inj hs
    exact h
  | farmn q =>
    simp only [Queue.putEnter, farmnQPutEnter, Option.map_eq_some_iff,
      Option.ite_none_right_eq_some] at hs
    obtain ⟨x, ⟨-, hx⟩, hs⟩ := hs
    obtain rfl := Option.some.inj hx
    obtain ⟨rfl, -⟩ := Prod.mk.inj hs
    exact h

theorem Of.putCheck (h : queue.Of ch) (hs : queue.putCheck i = some (some queue')) :
    queue'.Of ch := by
  cases queue with
  | mc121 q => cases hs
  | mc12m qs => cases hs
  | nmc12m s =>
    simp only [Queue.putCheck, nmc12mOps, nmc12mPutCheck, Option.map_map,
      Option.map_eq_some_iff] at hs
    obtain ⟨n, -, hs⟩ := hs
    obtain ⟨s', hs', rfl⟩ := Option.map_eq_some_iff.mp hs
    obtain ⟨q', hq', rfl⟩ := Option.map_eq_some_iff.mp hs'
    obtain ⟨-, hq'⟩ := Option.ite_none_right_eq_some.mp hq'
    obtain rfl := Option.some.inj hq'
    exact h
  | farmn q =>
    simp only [Queue.putCheck, farmnQPutCheck, Option.map_map, Option.map_eq_some_iff] at hs
    obtain ⟨n, -, hs⟩ := hs
    obtain ⟨q', hq', rfl⟩ := Option.map_eq_some_iff.mp hs
    obtain ⟨-, hq'⟩ := Option.ite_none_right_eq_some.mp hq'
    obtain rfl := Option.some.inj hq'
    exact h

theorem Of.fill (h : queue.Of ch) {off : ℕ} {bs : List Byte}
    (hs : queue.fill off bs = some queue') : queue'.Of ch := by
  cases queue with
  | mc121 q => cases hs
  | mc12m qs => cases hs
  | nmc12m s =>
    simp only [Queue.fill, nmc12mOps, nmc12mFill, Option.map_map, Option.map_eq_some_iff,
      Option.ite_none_right_eq_some] at hs
    obtain ⟨q', ⟨-, mem, -, rfl⟩, rfl⟩ := hs
    exact h
  | farmn q =>
    simp only [Queue.fill, farmnFill, Option.map_eq_some_iff, Option.ite_none_right_eq_some] at hs
    obtain ⟨q', ⟨-, mem, -, rfl⟩, rfl⟩ := hs
    exact h

/-- A no-copy queue has a unit for a link. -/
def ready (queue : Queue P) (remote : P) (tag : ℕ) : Bool :=
  match queue with
  | nmc12m s => s.1.ready (s.2 (remote, tag))
  | farmn q => q.queue.1.ready (q.queue.2 ())
  | _ => false

theorem of_nmc12mSend {q : Nmc12m} {fd : List Byte} {vptr : Vptr} {o}
    (h : nmc12mSend q fd vptr condRecv = some o) :
    (q.ready vptr = true ∧ ∃ rc vptr u, u.length = q.size ∧
      o = .sent ({ q with rc }, vptr) (fd ++ preamble condRecv ++ u)) ∨
    (q.ready vptr = false ∧ o = if condRecv then .refused (fd ++ intBytes 0) else .wait) := by
  simp only [nmc12mSend, Option.bind_eq_bind, ite_sendPreambleMessage,
    Option.bind_eq_some_iff] at h
  obtain ⟨n, hn, h⟩ := h
  simp only [Nmc12m.ready, List.getD_eq_getElem?_getD, hn, Option.getD_some, decide_eq_true_eq,
    decide_eq_false_iff_not]
  split at h
  case isTrue hready =>
    obtain ⟨fd', hwrite, h⟩ := Option.bind_eq_some_iff.mp h
    obtain ⟨u, hu, rfl⟩ := Option.map_eq_some_iff.mp hwrite
    exact .inl ⟨hready, _, _, u, length_of_readAt hu, (Option.some.inj h).symm⟩
  case isFalse hready =>
    refine .inr ⟨hready, ?_⟩
    cases condRecv <;> exact (Option.some.inj h).symm

/-- **A send from a no-copy queue** writes one unit, however many bytes it is asked for. -/
theorem Of.send_slots (h : queue.Of ch) (hslots : queue.copies = false) {o}
    (hs : queue.send remote tag bytes condRecv = some o) :
    (queue.ready remote tag = true ∧ ∃ queue' u, queue'.Of ch ∧ u.length = ch.dtype.bytes ∧
      o = .sent queue' (preamble condRecv ++ u)) ∨
    (queue.ready remote tag = false ∧
      o = if condRecv then .refused (intBytes 0) else .wait) := by
  cases queue with
  | mc121 q => cases hslots
  | mc12m qs => cases hslots
  | nmc12m s =>
    obtain ⟨o', hs', rfl⟩ := Option.map_eq_some_iff.mp hs
    obtain ⟨o'', hs'', rfl⟩ := Option.map_eq_some_iff.mp hs'
    obtain ⟨hready, rc, vptr, u, hu, rfl⟩ | ⟨hready, rfl⟩ := of_nmc12mSend hs''
    · have hof : (nmc12m ({ s.1 with rc }, Function.update s.2 (remote, tag) vptr)).Of ch := h
      exact .inl ⟨hready, _, u, hof, hu.trans h.2, rfl⟩
    · exact .inr ⟨hready, by cases condRecv <;> rfl⟩
  | farmn q =>
    obtain ⟨o', hs', rfl⟩ := Option.map_eq_some_iff.mp hs
    have hview := (farmn_views Unit 0).send q () [] condRecv
    rw [show (farmnOps Unit).send q () [] condRecv = some o' from hs'] at hview
    obtain ⟨o'', hs'', hview⟩ := Option.map_eq_some_iff.mp hview.symm
    obtain ⟨hready, rc, vptr, u, hu, rfl⟩ | ⟨hready, rfl⟩ := of_nmc12mSend hs''
    · cases o' with
      | sent q' fd =>
        obtain ⟨hq', rfl⟩ := SendOutcome.sent.inj hview
        have hsize : q'.size = q.size := congrArg (·.1.size) hq'.symm
        exact .inl ⟨hready, farmn q', u, ⟨h.1, hsize.trans h.2⟩, hu.trans h.2, rfl⟩
      | refused fd => cases hview
      | wait => cases hview
    · refine .inr ⟨hready, ?_⟩
      cases condRecv <;> cases o' <;> cases hview <;> rfl

theorem Of.send (h : queue.Of ch) {fd : List Byte}
    (hs : queue.send remote tag bytes condRecv = some (.sent queue' fd)) : queue'.Of ch := by
  cases hcopies : queue.copies with
  | false =>
    obtain ⟨-, queue'', u, hof, -, heq⟩ | ⟨-, heq⟩ := h.send_slots hcopies hs
    · exact (SendOutcome.sent.inj heq).1 ▸ hof
    · cases condRecv <;> cases heq
  | true =>
    cases hq : queue.ring? (queue.node remote) with
    | none => cases queue <;> simp [Queue.send, hq, copies] at hs hcopies
    | some q =>
      rw [h.send_eq hq] at hs
      split at hs
      case isTrue hlt => split at hs <;> cases hs
      case isFalse hlt =>
        obtain ⟨rfl, -⟩ := SendOutcome.sent.inj (Option.some.inj hs)
        exact h.setRing ((h.ring_wf hq).popped (not_lt.mp hlt))

end Queue

end Libdsys
