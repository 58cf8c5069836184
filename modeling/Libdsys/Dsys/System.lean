import Libdsys.Ltab.Tags
import Libdsys.Queue.Union

/-!
# Dsys/System — processes, service threads and sockets

Every process runs a program of calls on the channels it was given; the service thread it has for
each of its peers answers that peer's requests, one after the other, from the link they name.  A
socket is a stream whose items arrive some time after they are sent, in order.

The threads move in any order, a lock section or a transfer at a time: a thread that waits on a
condition variable has its next step once the condition holds.
-/

open Machinery

namespace Libdsys

variable {P σ : Type}

/-! ## The system -/

/-- A FIFO stream: what was sent and has not arrived, and what has arrived and is not read. -/
structure Socket (β : Type) where
  inFlight : List β
  delivered : List β

namespace Socket

variable {β : Type}

def empty : Socket β := ⟨[], []⟩

def send (s : Socket β) (bs : List β) : Socket β := { s with inFlight := s.inFlight ++ bs }

/-- One item arrives. -/
def deliver? (s : Socket β) : Option (Socket β) :=
  match s.inFlight with
  | [] => none
  | b :: bs => some ⟨bs, s.delivered ++ [b]⟩

/-- The first `n` items, once they have arrived. -/
def take? (s : Socket β) (n : ℕ) : Option (List β × Socket β) :=
  if n ≤ s.delivered.length then
    some (s.delivered.take n, { s with delivered := s.delivered.drop n })
  else none

/-- What was sent and is not read. -/
def stream (s : Socket β) : List β := s.delivered ++ s.inFlight

variable {s s' : Socket β}

@[simp] theorem stream_send (s : Socket β) (bs : List β) : (s.send bs).stream = s.stream ++ bs :=
  (List.append_assoc ..).symm

/-- An arrival changes nothing that was sent and is not read. -/
theorem stream_deliver (h : s.deliver? = some s') : s'.stream = s.stream := by
  obtain ⟨inFlight, delivered⟩ := s
  cases inFlight with
  | nil => cases h
  | cons b bs =>
    obtain rfl := Option.some.inj h
    simp [stream]

/-- A read takes the first items of the stream. -/
theorem take?_eq_some {n : ℕ} {bs : List β} (h : s.take? n = some (bs, s')) :
    n ≤ s.delivered.length ∧ bs = s.stream.take n ∧ s'.stream = s.stream.drop n := by
  simp only [take?, Option.ite_none_right_eq_some, Option.some.injEq, Prod.mk.injEq] at h
  obtain ⟨hn, rfl, rfl⟩ := h
  exact ⟨hn, (List.take_append_of_le_length hn).symm, (List.drop_append_of_le_length hn).symm⟩

end Socket

/-- A deterministic sequential program: the next call, and what it does with what a call returns
and leaves in its buffer. -/
structure Program (σ : Type) where
  call : σ → Option Call
  resume : σ → ℤ × List Byte → σ

/-- A computation thread: inside a call, what the call has still to do; and what its gets returned
so far, with the buffers they left. -/
structure Comp (P σ : Type) where
  state : σ
  micro : Option (Micro P (ℤ × List Byte))
  gets : List (ℤ × List Byte)

/-- A service thread: its cached link and tag, and the request it is at. -/
structure Service where
  clink : Option Link
  ctag : ℕ
  request : Option GetRequest

/-- The channels of every process, and its table of links, by peer. -/
structure Conf (P : Type) where
  chans : P → Chans P
  ltab : P → P → List Link

/-- **The ends of every link agree**: a link a source asks for leads to a channel with units of the
same size that has the process among its consumers. -/
def Conf.Matched (conf : Conf P) : Prop :=
  ∀ p q src tag link, src ∈ (conf.chans q).srcs → (p, tag) ∈ src.links →
    (conf.ltab p q).find? (·.tag = tag) = some link →
    ∃ ch, (conf.chans p).sinks[link.channel]? = some ch ∧
      ch.dtype.bytes = src.dtype.bytes ∧ q ∈ ch.plist

/-- All processes: `requests q p` and `data p q` are the sockets from `q` to `p` and back, and
`service p q` is the service thread of `p` for `q`. -/
structure Dsys (P σ : Type) where
  comp : P → Comp P σ
  queues : P → List (Queue P)
  requests : P → P → Socket GetRequest
  service : P → P → Service
  data : P → P → Socket Byte

inductive DsysAct (P : Type)
  /-- The computation thread of `q` goes on. -/
  | comp (q : P)
  /-- The service thread of `p` for `q` receives a request. -/
  | recv (p q : P)
  /-- It answers the request. -/
  | serve (p q : P)
  /-- A request of `q` arrives at `p`. -/
  | deliverRequest (q p : P)
  /-- A byte of `p` arrives at `q`. -/
  | deliverData (p q : P)
deriving DecidableEq

namespace Dsys

/-- No call made yet. -/
def start (conf : Conf P) (fresh : Fresh P) (init : P → σ) : Dsys P σ where
  comp q := ⟨init q, none, []⟩
  queues p := (conf.chans p).sinks.mapIdx fun c ch => Queue.create fresh p c ch
  requests _ _ := .empty
  service _ _ := ⟨none, 9999, none⟩
  data _ _ := .empty

/-- The requests of `q` that `p` has not answered. -/
def pending (s : Dsys P σ) (p q : P) : List GetRequest :=
  (s.service p q).request.toList ++ (s.requests q p).stream

/-- The `i`-th ring buffer of a channel. -/
def ring? (s : Dsys P σ) (p : P) (c i : ℕ) : Option Mc121 := do
  let queue ← (s.queues p)[c]?
  queue.ring? i

variable [DecidableEq P]

def setComp (s : Dsys P σ) (q : P) (comp : Comp P σ) : Dsys P σ :=
  { s with comp := Function.update s.comp q comp }

/-- The computation thread of `q` has `micro` still to do. -/
def setMicro (s : Dsys P σ) (q : P) (micro : Micro P (ℤ × List Byte)) : Dsys P σ :=
  s.setComp q { s.comp q with micro := some micro }

def setQueue (s : Dsys P σ) (p : P) (c : ℕ) (queue : Queue P) : Dsys P σ :=
  { s with queues := Function.update s.queues p ((s.queues p).set c queue) }

def setRequests (s : Dsys P σ) (q p : P) (socket : Socket GetRequest) : Dsys P σ :=
  { s with requests := Function.update s.requests q (Function.update (s.requests q) p socket) }

def setService (s : Dsys P σ) (p q : P) (service : Service) : Dsys P σ :=
  { s with service := Function.update s.service p (Function.update (s.service p) q service) }

def setData (s : Dsys P σ) (p q : P) (socket : Socket Byte) : Dsys P σ :=
  { s with data := Function.update s.data p (Function.update (s.data p) q socket) }

/-- A call returns. -/
def returns (prog : Program σ) (comp : Comp P σ) (out : ℤ × List Byte) : Comp P σ where
  state := prog.resume comp.state out
  micro := none
  gets :=
    match prog.call comp.state with
    | some (.get _ _ _) => comp.gets ++ [out]
    | _ => comp.gets

/-- A no-copy put tests slot `i`, and returns or waits. -/
def check (s : Dsys P σ) (q : P) (c i : ℕ) (queue : Queue P) (next : Micro P (ℤ × List Byte)) :
    Option (Dsys P σ) :=
  (queue.putCheck i).map fun
    | some queue => (s.setQueue q c queue).setMicro q next
    | none => (s.setQueue q c queue).setMicro q (.retry c i next)

/-- What a call does next. -/
def microStep (prog : Program σ) (s : Dsys P σ) (q : P) :
    Micro P (ℤ × List Byte) → Option (Dsys P σ)
  | .done out => some (s.setComp q (returns prog (s.comp q) out))
  | .fault => none
  | .put c i bs next => do
    let queue ← (s.queues q)[c]?
    let queue ← queue.put i bs
    return (s.setQueue q c queue).setMicro q next
  | .commit c count next => do
    let queue ← (s.queues q)[c]?
    let (queue, i) ← queue.putEnter count
    s.check q c i queue next
  | .retry c i next => do
    let queue ← (s.queues q)[c]?
    s.check q c i queue next
  | .fill c off bs next => do
    let queue ← (s.queues q)[c]?
    let queue ← queue.fill off bs
    return (s.setQueue q c queue).setMicro q next
  | .request p r next =>
    if p = q then none
    else some ((s.setRequests q p ((s.requests q p).send [r])).setMicro q next)
  | .read p n next => do
    let (bs, socket) ← (s.data p q).take? n
    return (s.setData p q socket).setMicro q (next bs)
  | .poll links ((p, tag) :: rest) sz du next =>
    some (s.setMicro q (.request p ⟨true, tag, du⟩ (.read p 4 fun flag =>
      if flag = intBytes 0 then .poll links rest sz du next else .read p sz next)))
  | .poll links [] sz du next => some (s.setMicro q (.poll links links sz du next))

/-- The link a request is answered from. -/
def serviceLink (conf : Conf P) (s : Dsys P σ) (p q : P) (tag : ℕ) : Option Link :=
  if (s.service p q).ctag = tag then
    (s.service p q).clink <|> (conf.ltab p q).find? (·.tag = tag)
  else (conf.ltab p q).find? (·.tag = tag)

/-- What the service thread of `p` for `q` is about to do: the request, the link and the queue it
answers it from, and how its lock section ends. -/
def serving (conf : Conf P) (s : Dsys P σ) (p q : P) :
    Option (GetRequest × Link × Queue P × SendOutcome (Queue P)) := do
  let r ← (s.service p q).request
  let link ← s.serviceLink conf p q r.tag
  let queue ← (s.queues p)[link.channel]?
  let ch ← (conf.chans p).sinks[link.channel]?
  let outcome ← queue.send q r.tag (sizeMul ch.dtype.bytes r.dunits) r.condRecv
  return (r, link, queue, outcome)

/-- The service thread has answered `r` from `link`, by writing `fd`. -/
def answered (s : Dsys P σ) (p q : P) (r : GetRequest) (link : Link) (fd : List Byte) :
    Dsys P σ :=
  (s.setService p q ⟨some link, r.tag, none⟩).setData p q ((s.data p q).send fd)

/-- One step of some thread or socket. -/
def step (A : Arith) (conf : Conf P) (prog : P → Program σ) (s : Dsys P σ) :
    DsysAct P → Option (Dsys P σ)
  | .comp q =>
    match (s.comp q).micro with
    | some micro => s.microStep (prog q) q micro
    | none => do
      let call ← (prog q).call (s.comp q).state
      return s.setMicro q (bcCall A (conf.chans q) call)
  | .recv p q =>
    match (s.service p q).request with
    | some _ => none
    | none => do
      let (rs, socket) ← (s.requests q p).take? 1
      let r ← rs.head?
      return (s.setRequests q p socket).setService p q { s.service p q with request := some r }
  | .serve p q => do
    let (r, link, _, outcome) ← s.serving conf p q
    match outcome with
    | .sent queue fd => some ((s.setQueue p link.channel queue).answered p q r link fd)
    | .refused fd => some (s.answered p q r link fd)
    | .wait => none
  | .deliverRequest q p => (s.requests q p).deliver?.map (s.setRequests q p)
  | .deliverData p q => (s.data p q).deliver?.map (s.setData p q)

/-! ## What a step leaves alone -/

section Frame

variable (s : Dsys P σ) (p q p' q' : P)

@[simp] theorem comp_setComp (comp : Comp P σ) :
    (s.setComp q comp).comp q' = if q' = q then comp else s.comp q' :=
  Function.update_apply ..

@[simp] theorem frame_setComp (comp : Comp P σ) :
    (s.setComp q comp).queues = s.queues ∧ (s.setComp q comp).requests = s.requests ∧
      (s.setComp q comp).service = s.service ∧ (s.setComp q comp).data = s.data :=
  ⟨rfl, rfl, rfl, rfl⟩

@[simp] theorem comp_setMicro (micro : Micro P (ℤ × List Byte)) :
    (s.setMicro q micro).comp q' =
      if q' = q then { s.comp q with micro := some micro } else s.comp q' :=
  comp_setComp ..

@[simp] theorem frame_setMicro (micro : Micro P (ℤ × List Byte)) :
    (s.setMicro q micro).queues = s.queues ∧ (s.setMicro q micro).requests = s.requests ∧
      (s.setMicro q micro).service = s.service ∧ (s.setMicro q micro).data = s.data :=
  frame_setComp ..

@[simp] theorem queues_setQueue (c : ℕ) (queue : Queue P) :
    (s.setQueue p c queue).queues p' = if p' = p then (s.queues p).set c queue else s.queues p' :=
  Function.update_apply ..

@[simp] theorem frame_setQueue (c : ℕ) (queue : Queue P) :
    (s.setQueue p c queue).comp = s.comp ∧ (s.setQueue p c queue).requests = s.requests ∧
      (s.setQueue p c queue).service = s.service ∧ (s.setQueue p c queue).data = s.data :=
  ⟨rfl, rfl, rfl, rfl⟩

@[simp] theorem requests_setRequests (socket : Socket GetRequest) :
    (s.setRequests q p socket).requests q' p' =
      if q' = q ∧ p' = p then socket else s.requests q' p' :=
  update_update_apply ..

@[simp] theorem frame_setRequests (socket : Socket GetRequest) :
    (s.setRequests q p socket).comp = s.comp ∧ (s.setRequests q p socket).queues = s.queues ∧
      (s.setRequests q p socket).service = s.service ∧ (s.setRequests q p socket).data = s.data :=
  ⟨rfl, rfl, rfl, rfl⟩

@[simp] theorem service_setService (service : Service) :
    (s.setService p q service).service p' q' =
      if p' = p ∧ q' = q then service else s.service p' q' :=
  update_update_apply ..

@[simp] theorem frame_setService (service : Service) :
    (s.setService p q service).comp = s.comp ∧ (s.setService p q service).queues = s.queues ∧
      (s.setService p q service).requests = s.requests ∧
      (s.setService p q service).data = s.data :=
  ⟨rfl, rfl, rfl, rfl⟩

@[simp] theorem data_setData (socket : Socket Byte) :
    (s.setData p q socket).data p' q' = if p' = p ∧ q' = q then socket else s.data p' q' :=
  update_update_apply ..

@[simp] theorem frame_setData (socket : Socket Byte) :
    (s.setData p q socket).comp = s.comp ∧ (s.setData p q socket).queues = s.queues ∧
      (s.setData p q socket).requests = s.requests ∧
      (s.setData p q socket).service = s.service :=
  ⟨rfl, rfl, rfl, rfl⟩

/-- A request is sent. -/
theorem pending_request (r : GetRequest) :
    (s.setRequests q p ((s.requests q p).send [r])).pending p' q' =
      if q' = q ∧ p' = p then s.pending p q ++ [r] else s.pending p' q' := by
  by_cases hqp : q' = q ∧ p' = p
  · obtain ⟨rfl, rfl⟩ := hqp
    simp [pending]
  · simp [pending, hqp]

/-- A service thread receives a request. -/
theorem pending_recv {r : GetRequest} {rs : List GetRequest} {socket : Socket GetRequest}
    (hidle : (s.service p q).request = none)
    (htake : (s.requests q p).take? 1 = some (r :: rs, socket)) :
    ((s.setRequests q p socket).setService p q
      { s.service p q with request := some r }).pending p' q' = s.pending p' q' := by
  obtain ⟨-, htaken, hstream⟩ := Socket.take?_eq_some htake
  by_cases hpq : p' = p ∧ q' = q
  · obtain ⟨rfl, rfl⟩ := hpq
    cases hreqs : (s.requests q' p').stream with
    | nil =>
      rw [hreqs] at htaken
      cases htaken
    | cons r' rs' =>
      rw [hreqs] at htaken hstream
      obtain ⟨rfl, rfl⟩ := List.cons.inj htaken
      simp [pending, hidle, hreqs, hstream]
  · have hqp : ¬ (q' = q ∧ p' = p) := fun h => hpq h.symm
    simp [pending, hpq, hqp]

/-- A request is answered. -/
theorem pending_answered {r : GetRequest} (hr : (s.service p q).request = some r) (link : Link)
    (fd : List Byte) : s.pending p' q' =
      if p' = p ∧ q' = q then r :: (s.answered p q r link fd).pending p' q'
      else (s.answered p q r link fd).pending p' q' := by
  by_cases hpq : p' = p ∧ q' = q
  · obtain ⟨rfl, rfl⟩ := hpq
    simp [pending, answered, hr]
  · simp [pending, answered, hpq]

/-- A request arrives. -/
theorem pending_deliverRequest {socket : Socket GetRequest}
    (hdel : (s.requests q p).deliver? = some socket) :
    (s.setRequests q p socket).pending p' q' = s.pending p' q' := by
  by_cases hqp : q' = q ∧ p' = p
  · obtain ⟨rfl, rfl⟩ := hqp
    simp [pending, Socket.stream_deliver hdel]
  · simp [pending, hqp]

end Frame

/-! ## What a step can be -/

/-- A lock section of a put on a queue of the caller, or a store into it, and what is to do then. -/
inductive OnQueue {α : Type} (queue : Queue P) : Micro P α → ℕ → Queue P → Micro P α → Prop
  | put {c i bs next queue'} (hput : queue.put i bs = some queue') :
    OnQueue queue (.put c i bs next) c queue' next
  | commit {c count next queue₁ i queue'} (henter : queue.putEnter count = some (queue₁, i))
    (hcheck : queue₁.putCheck i = some (some queue')) :
    OnQueue queue (.commit c count next) c queue' next
  | commitWait {c count next queue₁ i} (henter : queue.putEnter count = some (queue₁, i))
    (hcheck : queue₁.putCheck i = some none) :
    OnQueue queue (.commit c count next) c queue₁ (.retry c i next)
  | retry {c i next queue'} (hcheck : queue.putCheck i = some (some queue')) :
    OnQueue queue (.retry c i next) c queue' next
  | retryWait {c i next} (hcheck : queue.putCheck i = some none) :
    OnQueue queue (.retry c i next) c queue (.retry c i next)
  | fill {c off bs next queue'} (hfill : queue.fill off bs = some queue') :
    OnQueue queue (.fill c off bs next) c queue' next

/-- **What a step can be**: who moved, and what came of it. -/
inductive Moves (A : Arith) (conf : Conf P) (prog : P → Program σ) (s : Dsys P σ) :
    DsysAct P → Dsys P σ → Prop
  | call {q call} (hm : (s.comp q).micro = none)
    (hcall : (prog q).call (s.comp q).state = some call) :
    Moves A conf prog s (.comp q) (s.setMicro q (bcCall A (conf.chans q) call))
  | returns {q out} (hm : (s.comp q).micro = some (.done out)) :
    Moves A conf prog s (.comp q) (s.setComp q (returns (prog q) (s.comp q) out))
  | queue {q micro c queue queue' next} (hm : (s.comp q).micro = some micro)
    (hq : (s.queues q)[c]? = some queue) (hon : OnQueue queue micro c queue' next) :
    Moves A conf prog s (.comp q) ((s.setQueue q c queue').setMicro q next)
  | request {q p r next} (hm : (s.comp q).micro = some (.request p r next)) (hpq : p ≠ q) :
    Moves A conf prog s (.comp q) ((s.setRequests q p ((s.requests q p).send [r])).setMicro q next)
  | read {q p n next bs socket} (hm : (s.comp q).micro = some (.read p n next))
    (hread : (s.data p q).take? n = some (bs, socket)) :
    Moves A conf prog s (.comp q) ((s.setData p q socket).setMicro q (next bs))
  | poll {q links p tag rest sz du next}
    (hm : (s.comp q).micro = some (.poll links ((p, tag) :: rest) sz du next)) :
    Moves A conf prog s (.comp q) (s.setMicro q (.request p ⟨true, tag, du⟩ (.read p 4 fun flag =>
      if flag = intBytes 0 then .poll links rest sz du next else .read p sz next)))
  | pollAgain {q links sz du next} (hm : (s.comp q).micro = some (.poll links [] sz du next)) :
    Moves A conf prog s (.comp q) (s.setMicro q (.poll links links sz du next))
  | recv {p q r rs socket} (hidle : (s.service p q).request = none)
    (htake : (s.requests q p).take? 1 = some (r :: rs, socket)) :
    Moves A conf prog s (.recv p q)
      ((s.setRequests q p socket).setService p q { s.service p q with request := some r })
  | sent {p q r link queue queue' fd}
    (hserve : s.serving conf p q = some (r, link, queue, .sent queue' fd)) :
    Moves A conf prog s (.serve p q) ((s.setQueue p link.channel queue').answered p q r link fd)
  | refused {p q r link queue fd}
    (hserve : s.serving conf p q = some (r, link, queue, .refused fd)) :
    Moves A conf prog s (.serve p q) (s.answered p q r link fd)
  | deliverRequest {q p socket} (hdel : (s.requests q p).deliver? = some socket) :
    Moves A conf prog s (.deliverRequest q p) (s.setRequests q p socket)
  | deliverData {p q socket} (hdel : (s.data p q).deliver? = some socket) :
    Moves A conf prog s (.deliverData p q) (s.setData p q socket)

variable {A : Arith} {conf : Conf P} {prog : P → Program σ} {s s' : Dsys P σ} {q : P}

theorem moves_of_check {c i : ℕ} {queue : Queue P} {next : Micro P (ℤ × List Byte)}
    (h : s.check q c i queue next = some s') :
    ∃ queue' next', s' = (s.setQueue q c queue').setMicro q next' ∧
      (queue.putCheck i = some (some queue') ∧ next' = next ∨
        queue.putCheck i = some none ∧ queue' = queue ∧ next' = .retry c i next) := by
  obtain ⟨o, ho, rfl⟩ := Option.map_eq_some_iff.mp h
  cases o with
  | some queue' => exact ⟨queue', next, rfl, .inl ⟨ho, rfl⟩⟩
  | none => exact ⟨queue, .retry c i next, rfl, .inr ⟨ho, rfl, rfl⟩⟩

theorem moves_of_microStep {micro : Micro P (ℤ × List Byte)} (hm : (s.comp q).micro = some micro)
    (h : s.microStep (prog q) q micro = some s') : Moves A conf prog s (.comp q) s' := by
  cases micro with
  | done out =>
    obtain rfl := Option.some.inj h
    exact .returns hm
  | fault => cases h
  | put c i bs next =>
    obtain ⟨queue, hq, h⟩ := Option.bind_eq_some_iff.mp h
    obtain ⟨queue', hput, h⟩ := Option.bind_eq_some_iff.mp h
    obtain rfl := Option.some.inj h
    exact .queue hm hq (.put hput)
  | commit c count next =>
    obtain ⟨queue, hq, h⟩ := Option.bind_eq_some_iff.mp h
    obtain ⟨⟨queue₁, i⟩, henter, h⟩ := Option.bind_eq_some_iff.mp h
    obtain ⟨queue', next', rfl, ⟨hcheck, rfl⟩ | ⟨hcheck, rfl, rfl⟩⟩ := moves_of_check h
    · exact .queue hm hq (.commit henter hcheck)
    · exact .queue hm hq (.commitWait henter hcheck)
  | retry c i next =>
    obtain ⟨queue, hq, h⟩ := Option.bind_eq_some_iff.mp h
    obtain ⟨queue', next', rfl, ⟨hcheck, rfl⟩ | ⟨hcheck, rfl, rfl⟩⟩ := moves_of_check h
    · exact .queue hm hq (.retry hcheck)
    · exact .queue hm hq (.retryWait hcheck)
  | fill c off bs next =>
    obtain ⟨queue, hq, h⟩ := Option.bind_eq_some_iff.mp h
    obtain ⟨queue', hfill, h⟩ := Option.bind_eq_some_iff.mp h
    obtain rfl := Option.some.inj h
    exact .queue hm hq (.fill hfill)
  | request p r next =>
    obtain ⟨hpq, h⟩ := Option.ite_none_left_eq_some.mp h
    obtain rfl := Option.some.inj h
    exact .request hm hpq
  | read p n next =>
    obtain ⟨⟨bs, socket⟩, hread, h⟩ := Option.bind_eq_some_iff.mp h
    obtain rfl := Option.some.inj h
    exact .read hm hread
  | poll links rest sz du next =>
    cases rest with
    | nil =>
      obtain rfl := Option.some.inj h
      exact .pollAgain hm
    | cons x rest =>
      obtain rfl := Option.some.inj h
      exact .poll hm

theorem moves_of_step {a : DsysAct P} (h : s.step A conf prog a = some s') :
    Moves A conf prog s a s' := by
  cases a with
  | comp q =>
    cases hm : (s.comp q).micro with
    | some micro =>
      simp only [step, hm] at h
      exact moves_of_microStep hm h
    | none =>
      simp only [step, hm] at h
      obtain ⟨call, hcall, h⟩ := Option.bind_eq_some_iff.mp h
      obtain rfl := Option.some.inj h
      exact .call hm hcall
  | recv p q =>
    cases hidle : (s.service p q).request with
    | some r => simp [step, hidle] at h
    | none =>
      simp only [step, hidle] at h
      obtain ⟨⟨rs, socket⟩, htake, h⟩ := Option.bind_eq_some_iff.mp h
      obtain ⟨r, hr, h⟩ := Option.bind_eq_some_iff.mp h
      obtain rfl := Option.some.inj h
      obtain ⟨rs, rfl⟩ := List.head?_eq_some_iff.mp hr
      exact .recv hidle htake
  | serve p q =>
    obtain ⟨⟨r, link, queue, o⟩, hserve, h⟩ := Option.bind_eq_some_iff.mp h
    cases o with
    | sent queue' fd =>
      obtain rfl := Option.some.inj h
      exact .sent hserve
    | refused fd =>
      obtain rfl := Option.some.inj h
      exact .refused hserve
    | wait => cases h
  | deliverRequest q p =>
    obtain ⟨socket, hdel, rfl⟩ := Option.map_eq_some_iff.mp h
    exact .deliverRequest hdel
  | deliverData p q =>
    obtain ⟨socket, hdel, rfl⟩ := Option.map_eq_some_iff.mp h
    exact .deliverData hdel

/-! ## Queues and links

What a service thread has cached is what it would find in the table. -/

/-- The request, the link and the queue of a service thread that is about to answer. -/
theorem serving_eq_some {p q : P} {r : GetRequest} {link : Link} {queue : Queue P} {o} :
    s.serving conf p q = some (r, link, queue, o) ↔
      (s.service p q).request = some r ∧ s.serviceLink conf p q r.tag = some link ∧
      (s.queues p)[link.channel]? = some queue ∧
      ∃ ch, (conf.chans p).sinks[link.channel]? = some ch ∧
        queue.send q r.tag (sizeMul ch.dtype.bytes r.dunits) r.condRecv = some o := by
  simp only [serving, Option.bind_eq_bind, Option.bind_eq_some_iff, Option.pure_def,
    Option.some.injEq, Prod.mk.injEq]
  constructor
  · rintro ⟨_, hr, _, hlink, _, hqueue, ch, hch, _, hsend, rfl, rfl, rfl, rfl⟩
    exact ⟨hr, hlink, hqueue, ch, hch, hsend⟩
  · rintro ⟨hr, hlink, hqueue, ch, hch, hsend⟩
    exact ⟨r, hr, link, hlink, queue, hqueue, ch, hch, o, hsend, rfl, rfl, rfl, rfl⟩

/-- **What holds of the queues and the service threads**, whatever was done. -/
structure Wf (conf : Conf P) (s : Dsys P σ) : Prop where
  queues : ∀ (p : P) (c : ℕ) (queue : Queue P), (s.queues p)[c]? = some queue →
    ∃ ch, (conf.chans p).sinks[c]? = some ch ∧ queue.Of ch
  cached : ∀ p q link, (s.service p q).clink = some link →
    (conf.ltab p q).find? (·.tag = (s.service p q).ctag) = some link

omit [DecidableEq P] in
theorem wf_start (conf : Conf P) (fresh : Fresh P) (init : P → σ) :
    (start conf fresh init).Wf conf where
  queues p c queue hq := by
    obtain ⟨ch, hch, rfl⟩ := Option.map_eq_some_iff.mp (List.getElem?_mapIdx ▸ hq)
    exact ⟨ch, hch, Queue.of_create fresh p c ch⟩
  cached p q link hlink := by cases hlink

namespace Wf

omit [DecidableEq P] in
/-- **A cached link is the one in the table.** -/
theorem serviceLink_eq (h : s.Wf conf) (p q : P) (tag : ℕ) :
    s.serviceLink conf p q tag = (conf.ltab p q).find? (·.tag = tag) := by
  rw [serviceLink]
  split
  case isTrue htag =>
    cases hlink : (s.service p q).clink with
    | none => rfl
    | some link =>
      rw [← htag, h.cached p q link hlink]
      rfl
  case isFalse htag => rfl

/-- **The queue a request is answered from**, where it is for a link of a source of its process. -/
theorem exists_served (h : s.Wf conf) (hmatched : conf.Matched) {p q : P} {r : GetRequest}
    {link : Link} {queue : Queue P} {o : SendOutcome (Queue P)}
    (hserve : s.serving conf p q = some (r, link, queue, o)) {src : Src P}
    (hsrc : src ∈ (conf.chans q).srcs) (hasks : (p, r.tag) ∈ src.links) :
    ∃ ch, (conf.chans p).sinks[link.channel]? = some ch ∧ ch.dtype.bytes = src.dtype.bytes ∧
      q ∈ ch.plist ∧ queue.Of ch ∧
      queue.send q r.tag (sizeMul ch.dtype.bytes r.dunits) r.condRecv = some o := by
  obtain ⟨-, hlink, hqueue, ch, hch, hsend⟩ := serving_eq_some.mp hserve
  rw [h.serviceLink_eq] at hlink
  obtain ⟨ch', hch', hbytes, hq⟩ := hmatched p q src r.tag link hsrc hasks hlink
  obtain rfl := Option.some.inj (hch.symm.trans hch')
  obtain ⟨ch'', hch'', hof⟩ := h.queues p link.channel queue hqueue
  obtain rfl := Option.some.inj (hch.symm.trans hch'')
  exact ⟨ch, hch, hbytes, hq, hof, hsend⟩

theorem setQueue (h : s.Wf conf) {p : P} {c : ℕ} {queue queue' : Queue P}
    (hq : (s.queues p)[c]? = some queue) (hkeep : ∀ ch, queue.Of ch → queue'.Of ch) :
    (s.setQueue p c queue').Wf conf where
  queues p' c' q' hq' := by
    rw [queues_setQueue] at hq'
    split at hq'
    case isTrue hp =>
      subst hp
      rw [List.getElem?_set] at hq'
      split at hq'
      case isTrue hc =>
        subst hc
        obtain ⟨-, hq'⟩ := Option.ite_none_right_eq_some.mp hq'
        obtain ⟨ch, hch, hof⟩ := h.queues p' c queue hq
        exact ⟨ch, hch, Option.some.inj hq' ▸ hkeep ch hof⟩
      case isFalse hc => exact h.queues p' c' q' hq'
    case isFalse hp => exact h.queues p' c' q' hq'
  cached := h.cached

theorem setService (h : s.Wf conf) {p q : P} {service : Service}
    (hcached : ∀ link, service.clink = some link →
      (conf.ltab p q).find? (·.tag = service.ctag) = some link) :
    (s.setService p q service).Wf conf where
  queues := h.queues
  cached p' q' link hlink := by
    rw [service_setService] at hlink ⊢
    split at hlink
    case isTrue hpq =>
      obtain ⟨rfl, rfl⟩ := hpq
      rw [if_pos ⟨rfl, rfl⟩]
      exact hcached link hlink
    case isFalse hpq =>
      rw [if_neg hpq]
      exact h.cached p' q' link hlink

theorem answered (h : s.Wf conf) {p q : P} {r : GetRequest} {link : Link} (fd : List Byte)
    (hlink : s.serviceLink conf p q r.tag = some link) :
    (s.answered p q r link fd).Wf conf := by
  have hwf : (s.setService p q ⟨some link, r.tag, none⟩).Wf conf := h.setService fun link' heq => by
    rw [← heq, ← hlink, h.serviceLink_eq]
  exact ⟨hwf.queues, hwf.cached⟩

end Wf

theorem OnQueue.of {α : Type} {queue queue' : Queue P} {micro next : Micro P α} {c : ℕ}
    (h : OnQueue queue micro c queue' next) {ch : SinkChan P} (hof : queue.Of ch) :
    queue'.Of ch := by
  cases h with
  | put hput => exact hof.put hput
  | commit henter hcheck => exact (hof.putEnter henter).putCheck hcheck
  | commitWait henter hcheck => exact hof.putEnter henter
  | retry hcheck => exact hof.putCheck hcheck
  | retryWait hcheck => exact hof
  | fill hfill => exact hof.fill hfill

/-- **Every step keeps them.** -/
theorem Wf.moves (h : s.Wf conf) {a : DsysAct P} (hmoves : Moves A conf prog s a s') :
    s'.Wf conf := by
  cases hmoves with
  | call | returns | request | read | poll | pollAgain | deliverRequest | deliverData =>
    exact ⟨h.queues, h.cached⟩
  | queue hm hq hon =>
    have hwf := h.setQueue hq fun ch => hon.of
    exact ⟨hwf.queues, hwf.cached⟩
  | @recv p q r rs socket hidle htake =>
    have hwf : (s.setService p q { s.service p q with request := some r }).Wf conf :=
      h.setService (h.cached p q)
    exact ⟨hwf.queues, hwf.cached⟩
  | sent hserve =>
    obtain ⟨-, hlink, hqueue, ch, -, hsend⟩ := serving_eq_some.mp hserve
    refine (h.setQueue hqueue fun ch' hof => hof.send hsend).answered _ hlink
  | refused hserve =>
    obtain ⟨-, hlink, -⟩ := serving_eq_some.mp hserve
    exact h.answered _ hlink

end Dsys

/-! ## A producer and its consumers -/

/-- A program that makes the calls of a list, whatever they return. -/
def script (calls : List Call) : Program ℕ := ⟨fun n => calls[n]?, fun n _ => n + 1⟩

/-- Blocks that hold zeros. -/
def zeros : Fresh (Fin 3) := ⟨fun _ _ _ _ => 0, fun _ _ _ => 0⟩

/-- A channel of characters from 0 to the processes of `plist`. -/
def fanConf (sink src : Role) (plist : List (Fin 3)) : Conf (Fin 3) where
  chans p :=
    if p = 0 then ⟨[⟨sink, plist, .char, 2⟩], []⟩
    else if p ∈ plist then ⟨[], [⟨src, [(0, 0)], .char⟩]⟩
    else ⟨[], []⟩
  ltab p _ := if p = 0 then [⟨0, 0⟩] else []

/-- 0 makes `calls`, and the others get `du` units. -/
def fanProg (calls : List Call) (du : ℕ) (p : Fin 3) : Program ℕ :=
  script (if p = 0 then calls else [.get (.src 0) (some (List.replicate du 0)) du])

theorem mem_sinks_fanConf {sink src : Role} {plist : List (Fin 3)} {p : Fin 3}
    {ch : SinkChan (Fin 3)} (h : ch ∈ ((fanConf sink src plist).chans p).sinks) :
    ch = ⟨sink, plist, .char, 2⟩ := by
  simp only [fanConf] at h
  split at h
  · exact List.mem_singleton.mp h
  · split at h <;> exact absurd h List.not_mem_nil

theorem mem_srcs_fanConf {sink role : Role} {plist : List (Fin 3)} {q : Fin 3} {src : Src (Fin 3)}
    (h : src ∈ ((fanConf sink role plist).chans q).srcs) :
    q ∈ plist ∧ src = ⟨role, [(0, 0)], .char⟩ := by
  simp only [fanConf] at h
  split at h
  · exact absurd h List.not_mem_nil
  · split at h
    · exact ⟨‹_›, List.mem_singleton.mp h⟩
    · exact absurd h List.not_mem_nil

theorem matched_fanConf (sink src : Role) (plist : List (Fin 3)) :
    (fanConf sink src plist).Matched := by
  intro p q src tag link hsrc hlink hfind
  obtain ⟨hq, rfl⟩ := mem_srcs_fanConf hsrc
  obtain ⟨rfl, rfl⟩ := Prod.mk.inj (List.mem_singleton.mp hlink)
  obtain rfl := Option.some.inj hfind
  exact ⟨_, rfl, rfl, hq⟩

end Libdsys
