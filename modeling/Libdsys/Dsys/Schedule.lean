import Libdsys.Machinery.Kahn
import Libdsys.Branch.Plain
import Libdsys.Dsys.System

/-!
# Dsys/Schedule — gets do not depend on the schedule

Where memory is copied and nobody polls, no thread can tell how long it waited: computation and
service threads are the agents of a `Machinery.Kahn` net whose channels are the ring buffers and the
sockets.

* `Abstracts.moves` — every step of the system is a run of its net.
* `gets_agree` — so what the gets of a process return in two runs agrees.
-/

open Machinery

namespace Libdsys

variable {P σ : Type}

/-! ## The net -/

/-- The threads. -/
inductive Agent (P : Type)
  | comp (q : P)
  | service (p q : P)
deriving DecidableEq

/-- What threads write to and read from. -/
inductive Wire (P : Type)
  | ring (p : P) (c i : ℕ)
  | request (q p : P)
  | data (p q : P)
deriving DecidableEq

/-- What a wire carries. -/
abbrev Wire.Msg (P : Type) : Wire P → Type
  | .ring _ _ _ => Byte
  | .request _ _ => GetRequest
  | .data _ _ => Byte

/-- A service thread: it has taken a request, and what answers it. -/
inductive Serving
  | idle
  | got (r : GetRequest)
  | replies (fd : List Byte)

/-- What a thread knows. -/
abbrev Agent.Local (P σ : Type) : Agent P → Type
  | .comp _ => Comp P σ
  | .service _ _ => Serving

/-- The service thread with the request it is at. -/
def Service.serving (service : Service) : Serving :=
  match service.request with
  | none => .idle
  | some r => .got r

namespace Conf

/-- The only process that reads the `i`-th ring buffer of a channel. -/
def reader (conf : Conf P) (p : P) (c i : ℕ) : Option P := do
  let ch ← (conf.chans p).sinks[c]?
  match ch.role with
  | .pipe => ch.plist.head?
  | _ => ch.plist[i]?

variable [DecidableEq P]

/-- The ring buffer of a consumer. -/
def node (ch : SinkChan P) (q : P) : ℕ :=
  match ch.role with
  | .pipe => 0
  | _ => ch.plist.idxOf q

variable (A : Arith) (conf : Conf P) (prog : P → Program σ)

/-- What a computation thread does next. -/
def compOp (q : P) (comp : Comp P σ) : KahnOp (Wire.Msg P) (Comp P σ) :=
  match comp.micro with
  | none =>
    match (prog q).call comp.state with
    | none => .halt
    | some call => .skip { comp with micro := some (bcCall A (conf.chans q) call) }
  | some (.done out) => .skip (Dsys.returns (prog q) comp out)
  | some (.put c i bs next) => .put (.ring q c i) bs { comp with micro := some next }
  | some (.request p r next) => .put (.request q p) [r] { comp with micro := some next }
  | some (.read p n next) => .take (.data p q) n fun bs => { comp with micro := some (next bs) }
  | some _ => .halt

/-- What a service thread does next. -/
def serviceOp (p q : P) : Serving → KahnOp (Wire.Msg P) Serving
  | .idle => .take (.request q p) 1 fun rs => (rs.head?.map Serving.got).getD .idle
  | .got r =>
    match (conf.ltab p q).find? (·.tag = r.tag) with
    | none => .halt
    | some link =>
      match (conf.chans p).sinks[link.channel]? with
      | none => .halt
      | some ch =>
        if conf.reader p link.channel (node ch q) = some q then
          .take (.ring p link.channel (node ch q)) (sizeMul ch.dtype.bytes r.dunits) .replies
        else .halt
  | .replies fd => .put (.data p q) fd .idle

/-- **The net of a system** whose ring buffers have the sizes they have in `s₀`. -/
def net (s₀ : Dsys P σ) : Kahn (Wire.Msg P) (Agent.Local P σ) where
  prog
    | .comp q => compOp A conf prog q
    | .service p q => serviceOp conf p q
  cap
    | .ring p c i => (s₀.ring? p c i).map Mc121.size
    | _ => none
  writer
    | .ring p _ _ => .comp p
    | .request q _ => .comp q
    | .data p q => .service p q
  reader
    | .ring p c i => .service p ((conf.reader p c i).getD p)
    | .request q p => .service p q
    | .data _ q => .comp q
  put_writer {a l k ms next} h := by
    cases a with
    | comp q =>
      simp only [compOp] at h
      split at h
      case h_1 => split at h <;> cases h
      all_goals cases h
      all_goals rfl
    | service p q =>
      simp only [serviceOp] at h
      split at h
      case h_2 =>
        split at h
        · cases h
        · split at h
          · cases h
          · split at h <;> cases h
      all_goals cases h
      all_goals rfl
  take_reader {a l k n next} h := by
    cases a with
    | comp q =>
      simp only [compOp] at h
      split at h
      case h_1 => split at h <;> cases h
      all_goals cases h
      all_goals rfl
    | service p q =>
      simp only [serviceOp] at h
      split at h
      case h_2 =>
        split at h
        · cases h
        · split at h
          · cases h
          · split at h
            case isTrue hreader =>
              cases h
              exact congrArg (fun reader => Agent.service p (reader.getD p)) hreader
            case isFalse => cases h
      all_goals cases h
      all_goals rfl

end Conf

/-! ## The system and its net -/

/-- **What the net is of the system**: what its threads are at, what their ring buffers hold, and
what was sent and is not read. -/
structure Abstracts (cap : Wire P → Option ℕ) (s : Dsys P σ)
    (k : KahnState (Wire.Msg P) (Agent.Local P σ)) : Prop where
  comp : ∀ q, k.loc (.comp q) = s.comp q
  service : ∀ p q, k.loc (.service p q) = (s.service p q).serving
  ring : ∀ p c i ring, s.ring? p c i = some ring → k.chan (.ring p c i) = ring.contents
  size : ∀ p c i ring, s.ring? p c i = some ring → cap (.ring p c i) = some ring.size
  request : ∀ q p, k.chan (.request q p) = (s.requests q p).stream
  data : ∀ p q, k.chan (.data p q) = (s.data p q).stream

theorem Dsys.ring?_setQueue_of_ne [DecidableEq P] (s : Dsys P σ) {p p' : P} {c c' : ℕ}
    (h : ¬ (p' = p ∧ c' = c)) (queue : Queue P) (i : ℕ) :
    (s.setQueue p c queue).ring? p' c' i = s.ring? p' c' i := by
  by_cases hp : p' = p
  · subst hp
    have hc : c ≠ c' := fun heq => h ⟨rfl, heq.symm⟩
    simp [ring?, List.getElem?_set_ne hc]
  · simp [ring?, hp]

theorem Dsys.ring?_setQueue [DecidableEq P] {s : Dsys P σ} {p : P} {c i : ℕ} {queue : Queue P}
    {ring : Mc121} (hqueue : (s.queues p)[c]? = some queue) (hring : queue.ring? i = some ring)
    (ring' : Mc121) (p' : P) (c' i' : ℕ) :
    (s.setQueue p c (queue.setRing i ring')).ring? p' c' i' =
      if p' = p ∧ c' = c ∧ i' = i then some ring' else s.ring? p' c' i' := by
  by_cases hpc : p' = p ∧ c' = c
  · obtain ⟨rfl, rfl⟩ := hpc
    obtain ⟨hlt, rfl⟩ := List.getElem?_eq_some_iff.mp hqueue
    simp [ring?, hlt, Queue.ring?_setRing hring]
  · rw [if_neg fun h => hpc ⟨h.1, h.2.1⟩, ring?_setQueue_of_ne s hpc]

namespace Abstracts

variable [DecidableEq P] {cap : Wire P → Option ℕ} {s : Dsys P σ}
  {k : KahnState (Wire.Msg P) (Agent.Local P σ)}

theorem setComp (h : Abstracts cap s k) (q : P) (comp : Comp P σ) :
    Abstracts cap (s.setComp q comp) ⟨Function.update k.loc (.comp q) comp, k.chan⟩ where
  comp q' := by
    rcases eq_or_ne q' q with rfl | hne
    · simp
    · have hne' : Agent.comp q' ≠ .comp q := fun heq => hne (Agent.comp.inj heq)
      simp [hne, hne', h.comp]
  service p q' := by
    simp [h.service]
  ring := h.ring
  size := h.size
  request := h.request
  data := h.data

theorem setService (h : Abstracts cap s k) (p q : P) {service : Service} {serving : Serving}
    (hs : serving = service.serving) :
    Abstracts cap (s.setService p q service)
      ⟨Function.update k.loc (.service p q) serving, k.chan⟩ where
  comp q' := by
    simp [h.comp]
  service p' q' := by
    by_cases hpq : p' = p ∧ q' = q
    · obtain ⟨rfl, rfl⟩ := hpq
      simp [hs]
    · have hne : Agent.service p' q' ≠ .service p q := fun heq => hpq (Agent.service.inj heq)
      simp [hpq, hne, h.service]
  ring := h.ring
  size := h.size
  request := h.request
  data := h.data

theorem setRequests (h : Abstracts cap s k) (q p : P) {socket : Socket GetRequest}
    {rs : List GetRequest} (hs : rs = socket.stream) :
    Abstracts cap (s.setRequests q p socket)
      ⟨k.loc, Function.update k.chan (.request q p) rs⟩ where
  comp := h.comp
  service := h.service
  ring p' c i ring hring := by
    simpa using h.ring p' c i ring hring
  size := h.size
  request q' p' := by
    by_cases hqp : q' = q ∧ p' = p
    · obtain ⟨rfl, rfl⟩ := hqp
      simp [hs]
    · have hne : Wire.request q' p' ≠ .request q p := fun heq => hqp (Wire.request.inj heq)
      simp [hqp, hne, h.request]
  data p' q' := by
    simpa using h.data p' q'

theorem setData (h : Abstracts cap s k) (p q : P) {socket : Socket Byte} {bs : List Byte}
    (hs : bs = socket.stream) :
    Abstracts cap (s.setData p q socket) ⟨k.loc, Function.update k.chan (.data p q) bs⟩ where
  comp := h.comp
  service := h.service
  ring p' c i ring hring := by
    simpa using h.ring p' c i ring hring
  size := h.size
  request q' p' := by
    simpa using h.request q' p'
  data p' q' := by
    by_cases hpq : p' = p ∧ q' = q
    · obtain ⟨rfl, rfl⟩ := hpq
      simp [hs]
    · have hne : Wire.data p' q' ≠ .data p q := fun heq => hpq (Wire.data.inj heq)
      simp [hpq, hne, h.data]

theorem setRing (h : Abstracts cap s k) {p : P} {c i : ℕ} {queue : Queue P} {ring ring' : Mc121}
    (hqueue : (s.queues p)[c]? = some queue) (hring : queue.ring? i = some ring)
    (hsize : ring'.size = ring.size) {bs : List Byte} (hs : bs = ring'.contents) :
    Abstracts cap (s.setQueue p c (queue.setRing i ring'))
      ⟨k.loc, Function.update k.chan (.ring p c i) bs⟩ where
  comp := h.comp
  service := h.service
  ring p' c' i' ring'' hring'' := by
    rw [Dsys.ring?_setQueue hqueue hring] at hring''
    split at hring''
    case isTrue heq =>
      obtain ⟨rfl, rfl, rfl⟩ := heq
      obtain rfl := Option.some.inj hring''
      simp [hs]
    case isFalse hne =>
      have hne' : Wire.ring p' c' i' ≠ .ring p c i := fun heq => hne (Wire.ring.inj heq)
      simpa [hne'] using h.ring p' c' i' ring'' hring''
  size p' c' i' ring'' hring'' := by
    rw [Dsys.ring?_setQueue hqueue hring] at hring''
    split at hring''
    case isTrue heq =>
      obtain ⟨rfl, rfl, rfl⟩ := heq
      obtain rfl := Option.some.inj hring''
      rw [hsize]
      exact h.size p' c' i' ring (by rw [Dsys.ring?, hqueue]; exact hring)
    case isFalse hne => exact h.size p' c' i' ring'' hring''
  request q' p' := by
    simpa using h.request q' p'
  data p' q' := by
    simpa using h.data p' q'

end Abstracts

/-! ## Where nobody polls -/

/-- **The channels copy memory and are read in order**: sinks are `BC_ROLE_PIPE`,
`BC_ROLE_REPLICATE` or `BC_ROLE_SPREAD`, and no source is `BC_ROLE_COLLECT_ANY`. -/
structure Conf.Ordered (conf : Conf P) : Prop where
  matched : conf.Matched
  sinks : ∀ p, ∀ ch ∈ (conf.chans p).sinks, ch.role ∈ [.pipe, .replicate, .spread]
  srcs : ∀ q, ∀ src ∈ (conf.chans q).srcs, src.role ∈
    [.pipe, .collect, .reduceSum, .reduceMul, .reduceMax, .reduceMin, .reduceMinmax]

/-- The links a process asks for. -/
def Conf.asked (conf : Conf P) (q : P) : List (P × ℕ) := (conf.chans q).srcs.flatMap Src.links

/-- **No call polls and no request is conditional.** -/
structure Dsys.Plain (conf : Conf P) (s : Dsys P σ) : Prop where
  micro : ∀ q micro, (s.comp q).micro = some micro → micro.Plain (conf.asked q)
  pending : ∀ p q, ∀ r ∈ s.pending p q, r.condRecv = false ∧ (p, r.tag) ∈ conf.asked q

namespace Dsys

variable {A : Arith} {conf : Conf P} {prog : P → Program σ} {s s' : Dsys P σ}

theorem plain_start (conf : Conf P) (fresh : Fresh P) (init : P → σ) :
    (start conf fresh init).Plain conf where
  micro q micro hm := by cases hm
  pending p q r hr := by cases hr

variable [DecidableEq P]

theorem Plain.setMicro (h : s.Plain conf) {q : P} {micro : Micro P (ℤ × List Byte)}
    (hplain : micro.Plain (conf.asked q)) : (s.setMicro q micro).Plain conf where
  micro q' micro' hm := by
    rcases eq_or_ne q' q with rfl | hne
    · simp only [comp_setMicro, if_true, Option.some.injEq] at hm
      exact hm ▸ hplain
    · exact h.micro q' micro' (by simpa [hne] using hm)
  pending := h.pending

theorem Plain.answered (h : s.Plain conf) {p q : P} {r : GetRequest}
    (hr : (s.service p q).request = some r) (link : Link) (fd : List Byte) :
    (s.answered p q r link fd).Plain conf where
  micro := h.micro
  pending p' q' r' hr' := by
    refine h.pending p' q' r' ?_
    rw [pending_answered s p q p' q' hr link fd]
    split
    case isTrue => exact List.mem_cons_of_mem _ hr'
    case isFalse => exact hr'

theorem OnQueue.plain {α : Type} {queue queue' : Queue P} {micro next : Micro P α} {c : ℕ}
    {links : List (P × ℕ)} (h : OnQueue queue micro c queue' next) (hplain : micro.Plain links) :
    next.Plain links := by
  cases h <;> exact hplain

theorem Plain.moves (h : s.Plain conf) (hany : ∀ q, ∀ src ∈ (conf.chans q).srcs,
    src.role ≠ .collectAny) {a : DsysAct P} (hmoves : Moves A conf prog s a s') :
    s'.Plain conf := by
  cases hmoves with
  | call hm hcall => exact h.setMicro (plain_bcCall A _ (hany _))
  | @returns q out hm =>
    refine ⟨fun q' micro hm' => ?_, h.pending⟩
    rcases eq_or_ne q' q with rfl | hne
    · simp [Dsys.returns] at hm'
    · exact h.micro q' micro (by simpa [hne] using hm')
  | @queue q micro c queue queue' next hm hq hon =>
    have hplain := h.setMicro (hon.plain (h.micro _ _ hm))
    exact ⟨hplain.micro, h.pending⟩
  | @request q p r next hm hpq =>
    obtain ⟨hcond, hmem, hnext⟩ := h.micro _ _ hm
    have hplain := h.setMicro hnext
    refine ⟨hplain.micro, fun p' q' r' hr' => ?_⟩
    change r' ∈ (s.setRequests q p ((s.requests q p).send [r])).pending p' q' at hr'
    rw [pending_request] at hr'
    split at hr'
    case isTrue heq =>
      obtain ⟨rfl, rfl⟩ := heq
      rcases List.mem_append.mp hr' with hmem' | hmem'
      · exact h.pending p' q' r' hmem'
      · exact List.mem_singleton.mp hmem' ▸ ⟨hcond, hmem⟩
    case isFalse => exact h.pending p' q' r' hr'
  | @read q p n next bs socket hm hread =>
    have hplain := h.setMicro (h.micro _ _ hm bs)
    exact ⟨hplain.micro, h.pending⟩
  | poll hm | pollAgain hm => exact (h.micro _ _ hm).elim
  | recv hidle htake =>
    refine ⟨h.micro, fun p' q' r' hr' => h.pending p' q' r' ?_⟩
    rwa [pending_recv _ _ _ _ _ hidle htake] at hr'
  | @sent p q r link queue queue' fd hserve =>
    have hplain := h.answered (serving_eq_some.mp hserve).1 link fd
    exact ⟨hplain.micro, hplain.pending⟩
  | refused hserve => exact h.answered (serving_eq_some.mp hserve).1 _ _
  | deliverRequest hdel =>
    refine ⟨h.micro, fun p' q' r' hr' => h.pending p' q' r' ?_⟩
    rwa [pending_deliverRequest _ _ _ _ _ hdel] at hr'
  | deliverData hdel => exact ⟨h.micro, h.pending⟩

end Dsys

/-! ## Every step is a run of the net -/

/-- **Every consumer list of a pipe names one process.** -/
def Conf.OneToOne (conf : Conf P) : Prop :=
  ∀ p, ∀ ch ∈ (conf.chans p).sinks, ch.role = .pipe → ∀ q ∈ ch.plist, ∀ q' ∈ ch.plist, q = q'

theorem Conf.Ordered.ne_collectAny {conf : Conf P} (h : conf.Ordered) (q : P) :
    ∀ src ∈ (conf.chans q).srcs, src.role ≠ .collectAny := by
  intro src hsrc hrole
  have hmem := h.srcs q src hsrc
  rw [hrole] at hmem
  exact absurd hmem (by decide)

variable [DecidableEq P] {A : Arith} {conf : Conf P} {prog : P → Program σ} {s s' s₀ : Dsys P σ}

namespace Conf.Ordered

variable {p q : P} {c : ℕ} {ch : SinkChan P} {queue : Queue P}

omit [DecidableEq P] in
/-- The queues of such channels copy memory. -/
theorem copies (h : conf.Ordered) (hch : (conf.chans p).sinks[c]? = some ch)
    (hof : queue.Of ch) : queue.copies = true := by
  have hrole := h.sinks p ch (List.mem_of_getElem? hch)
  obtain ⟨role, plist, dtype, dunits⟩ := ch
  simp only [List.mem_cons, List.not_mem_nil, or_false] at hrole
  rcases hrole with rfl | rfl | rfl <;> cases queue <;> first | rfl | cases hof.1 _ rfl

/-- **Every ring buffer has one reader.** -/
theorem reader_node (h : conf.Ordered) (hone : conf.OneToOne)
    (hch : (conf.chans p).sinks[c]? = some ch) (hof : queue.Of ch) (hq : q ∈ ch.plist) :
    queue.node q = Conf.node ch q ∧ conf.reader p c (Conf.node ch q) = some q := by
  have hrole := h.sinks p ch (List.mem_of_getElem? hch)
  have hpipe := hone p ch (List.mem_of_getElem? hch)
  rw [reader, hch, Option.bind_eq_bind, Option.bind_some]
  obtain ⟨role, plist, dtype, dunits⟩ := ch
  simp only [List.mem_cons, List.not_mem_nil, or_false] at hrole
  have hlisted : plist[plist.idxOf q]? = some q := List.getElem?_idxOf hq
  rcases hrole with rfl | rfl | rfl
  · cases queue with
    | mc121 ring =>
      refine ⟨rfl, ?_⟩
      cases plist with
      | nil => cases hq
      | cons q' plist =>
        exact congrArg some (hpipe rfl q' List.mem_cons_self q hq)
    | mc12m | nmc12m | farmn => cases hof.1 _ rfl
  · cases queue with
    | mc12m qs => exact ⟨congrArg (List.idxOf q) hof.2.1, hlisted⟩
    | mc121 | nmc12m | farmn => cases hof.1 _ rfl
  · cases queue with
    | mc12m qs => exact ⟨congrArg (List.idxOf q) hof.2.1, hlisted⟩
    | mc121 | nmc12m | farmn => cases hof.1 _ rfl

end Conf.Ordered

/-- Only a put does something on a queue that copies memory. -/
theorem OnQueue.exists_put {α : Type} {queue queue' : Queue P} {micro next : Micro P α} {c : ℕ}
    (h : Dsys.OnQueue queue micro c queue' next) (hcopies : queue.copies = true) :
    ∃ i bs, micro = .put c i bs next ∧ queue.put i bs = some queue' := by
  cases queue with
  | nmc12m | farmn => cases hcopies
  | mc121 | mc12m =>
    cases h with
    | put hput => exact ⟨_, _, rfl, hput⟩
    | commit henter | commitWait henter => cases henter
    | retry hcheck | retryWait hcheck => cases hcheck
    | fill hfill => cases hfill

/-- A service thread of the net writes its reply. -/
theorem Conf.net_replies {k : KahnState (Wire.Msg P) (Agent.Local P σ)} {p q : P} {fd : List Byte}
    (hk : k.loc (.service p q) = .replies fd) :
    (conf.net A prog s₀).step k (.service p q) =
      some ⟨Function.update k.loc (.service p q) .idle,
        Function.update k.chan (.data p q) (k.chan (.data p q) ++ fd)⟩ := by
  have hop : (conf.net A prog s₀).prog (.service p q) (k.loc (.service p q)) =
      .put (.data p q) fd .idle := by
    rw [hk]
    rfl
  exact Kahn.step_put hop fun n hn => nomatch hn

namespace Abstracts

variable {k : KahnState (Wire.Msg P) (Agent.Local P σ)} {p q : P}

/-- A computation thread moves as its agent does. -/
theorem moves_comp (h : Abstracts (conf.net A prog s₀).cap s k) (hconf : conf.Ordered)
    (hwf : s.Wf conf) (hplain : s.Plain conf) (hmoves : Dsys.Moves A conf prog s (.comp q) s') :
    ∃ k', Reaches (conf.net A prog s₀).step k k' ∧ Abstracts (conf.net A prog s₀).cap s' k' := by
  have hop {op} (heq : conf.compOp A prog q (s.comp q) = op) :
      (conf.net A prog s₀).prog (.comp q) (k.loc (.comp q)) = op := by
    rw [h.comp]
    exact heq
  cases hmoves with
  | @call _ call hm hcall =>
    have hcall : conf.compOp A prog q (s.comp q) =
        .skip { s.comp q with micro := some (bcCall A (conf.chans q) call) } := by
      simp [Conf.compOp, hm, hcall]
    exact ⟨_, .single (Kahn.step_skip (hop hcall)), h.setComp q _⟩
  | @returns _ out hm =>
    have hret : conf.compOp A prog q (s.comp q) =
        .skip (Dsys.returns (prog q) (s.comp q) out) := by
      simp [Conf.compOp, hm]
    exact ⟨_, .single (Kahn.step_skip (hop hret)), h.setComp q _⟩
  | @queue _ micro c queue queue' next hm hq hon =>
    obtain ⟨ch, hch, hof⟩ := hwf.queues q c queue hq
    obtain ⟨i, bs, rfl, hput⟩ := OnQueue.exists_put hon (hconf.copies hch hof)
    obtain ⟨ring, hring, hroom, rfl⟩ := hof.put_eq_some hput
    have hput : conf.compOp A prog q (s.comp q) =
        .put (.ring q c i) bs { s.comp q with micro := some next } := by
      simp [Conf.compOp, hm]
    have hring' : s.ring? q c i = some ring := by
      rw [Dsys.ring?, hq]
      exact hring
    have hwfr := hof.ring_wf hring
    have hcap : ∀ n ∈ (conf.net A prog s₀).cap (.ring q c i),
        (k.chan (.ring q c i)).length + bs.length ≤ n := by
      intro n hn
      rw [h.size q c i ring hring'] at hn
      obtain rfl := Option.some.inj hn
      rw [h.ring q c i ring hring', hwfr.length_contents]
      exact hroom
    have hpushed : k.chan (.ring q c i) ++ bs = (ring.pushed bs).contents := by
      rw [h.ring q c i ring hring', hwfr.contents_pushed hroom]
    exact ⟨_, .single (Kahn.step_put (hop hput) hcap),
      (h.setRing hq hring (ring.pushed_size bs) hpushed).setComp q _⟩
  | @request _ p r next hm hpq =>
    have hreq : conf.compOp A prog q (s.comp q) =
        .put (.request q p) [r] { s.comp q with micro := some next } := by
      simp [Conf.compOp, hm]
    refine ⟨_, .single (Kahn.step_put (hop hreq) fun n hn => nomatch hn),
      (h.setRequests q p ?_).setComp q _⟩
    rw [h.request, Socket.stream_send]
  | @read _ p n next bs socket hm htake =>
    obtain ⟨hn, rfl, hstream⟩ := Socket.take?_eq_some htake
    have hread : conf.compOp A prog q (s.comp q) =
        .take (.data p q) n fun bs => { s.comp q with micro := some (next bs) } := by
      simp [Conf.compOp, hm]
    have hlen : n ≤ (k.chan (.data p q)).length := by
      rw [h.data, Socket.stream, List.length_append]
      omega
    refine ⟨_, .single (Kahn.step_take (hop hread) hlen), ?_⟩
    rw [h.data]
    exact (h.setData p q hstream.symm).setComp q _
  | poll hm | pollAgain hm => exact (hplain.micro _ _ hm).elim

/-- A service thread that answers takes from a ring buffer and then writes. -/
theorem moves_sent (h : Abstracts (conf.net A prog s₀).cap s k) (hconf : conf.Ordered)
    (hone : conf.OneToOne) (hwf : s.Wf conf) (hplain : s.Plain conf) {r : GetRequest} {link : Link}
    {queue queue' : Queue P} {fd : List Byte}
    (hserve : s.serving conf p q = some (r, link, queue, .sent queue' fd)) :
    ∃ k', Reaches (conf.net A prog s₀).step k k' ∧ Abstracts (conf.net A prog s₀).cap
      ((s.setQueue p link.channel queue').answered p q r link fd) k' := by
  obtain ⟨hr, hlink, hqueue, -⟩ := Dsys.serving_eq_some.mp hserve
  rw [hwf.serviceLink_eq] at hlink
  obtain ⟨hcond, hasks⟩ := hplain.pending p q r (by simp [Dsys.pending, hr])
  obtain ⟨src, hsrc, hasks⟩ := List.mem_flatMap.mp hasks
  obtain ⟨ch, hch, -, hq, hof, hsend⟩ := hwf.exists_served hconf.matched hserve hsrc hasks
  obtain ⟨hnode, hreader⟩ := hconf.reader_node hone hch hof hq
  obtain ⟨ring, hring⟩ := hof.exists_ring (hconf.copies hch hof) hq
  have hwfr := hof.ring_wf hring
  rw [hof.send_eq hring, hcond, Option.some.injEq] at hsend
  split at hsend
  case isTrue hlt => cases hsend
  case isFalse hlt =>
    obtain ⟨rfl, rfl⟩ := SendOutcome.sent.inj hsend
    rw [hnode] at hring ⊢
    have hring' : s.ring? p link.channel (Conf.node ch q) = some ring := by
      rw [Dsys.ring?, hqueue]
      exact hring
    have hchan := h.ring _ _ _ _ hring'
    -- The bytes leave the ring buffer.
    have hget : (conf.net A prog s₀).prog (.service p q) (k.loc (.service p q)) =
        .take (.ring p link.channel (Conf.node ch q)) (sizeMul ch.dtype.bytes r.dunits)
          .replies := by
      rw [h.service]
      simp [Conf.net, Conf.serviceOp, Service.serving, hr, hlink, hch, hreader]
    have hlen : sizeMul ch.dtype.bytes r.dunits ≤
        (k.chan (.ring p link.channel (Conf.node ch q))).length := by
      rw [hchan, hwfr.length_contents]
      exact not_lt.mp hlt
    refine ⟨_, .head (Kahn.step_take hget hlen)
      (.single (Conf.net_replies (Function.update_self ..))), ?_⟩
    have hne : Wire.data p q ≠ .ring p link.channel (Conf.node ch q) := fun heq => by cases heq
    simp only [Function.update_idem, Function.update_of_ne hne, hchan, h.data]
    have hdrop := (hwfr.contents_popped (not_lt.mp hlt)).symm
    have hidle : Serving.idle = (⟨some link, r.tag, none⟩ : Service).serving := rfl
    exact ((h.setRing hqueue hring (ring.popped_size _) hdrop).setService p q hidle).setData p q
      (Socket.stream_send ..).symm

/-- **Every step is a run of the net.** -/
theorem moves (h : Abstracts (conf.net A prog s₀).cap s k) (hconf : conf.Ordered)
    (hone : conf.OneToOne) (hwf : s.Wf conf) (hplain : s.Plain conf) {a : DsysAct P}
    (hmoves : Dsys.Moves A conf prog s a s') :
    ∃ k', Reaches (conf.net A prog s₀).step k k' ∧ Abstracts (conf.net A prog s₀).cap s' k' := by
  cases a with
  | comp q => exact h.moves_comp hconf hwf hplain hmoves
  | recv p q =>
    cases hmoves with
    | @recv _ _ r rs socket hidle htake =>
      obtain ⟨hn, htaken, hstream⟩ := Socket.take?_eq_some htake
      have hop : (conf.net A prog s₀).prog (.service p q) (k.loc (.service p q)) =
          .take (.request q p) 1 fun rs => (rs.head?.map Serving.got).getD .idle := by
        rw [h.service, Service.serving, hidle]
        rfl
      have hlen : 1 ≤ (k.chan (.request q p)).length := by
        rw [h.request, Socket.stream, List.length_append]
        omega
      refine ⟨_, .single (Kahn.step_take hop hlen), ?_⟩
      rw [h.request, ← htaken]
      exact (h.setRequests q p hstream.symm).setService p q rfl
  | serve p q =>
    cases hmoves with
    | sent hserve => exact h.moves_sent hconf hone hwf hplain hserve
    | @refused _ _ r link queue fd hserve =>
      -- Only conditional requests are refused.
      obtain ⟨hr, -⟩ := Dsys.serving_eq_some.mp hserve
      obtain ⟨hcond, hasks⟩ := hplain.pending p q r (by simp [Dsys.pending, hr])
      obtain ⟨src, hsrc, hasks⟩ := List.mem_flatMap.mp hasks
      obtain ⟨ch, hch, -, hq, hof, hsend⟩ := hwf.exists_served hconf.matched hserve hsrc hasks
      obtain ⟨ring, hring⟩ := hof.exists_ring (hconf.copies hch hof) hq
      rw [hof.send_eq hring, hcond, Option.some.injEq] at hsend
      split at hsend <;> cases hsend
  | deliverRequest q p =>
    cases hmoves with
    | deliverRequest hdel =>
      have hsame : k.chan (.request q p) = _ :=
        (h.request q p).trans (Socket.stream_deliver hdel).symm
      have hk := h.setRequests q p hsame
      rw [Function.update_eq_self] at hk
      exact ⟨k, .refl k, hk⟩
  | deliverData p q =>
    cases hmoves with
    | deliverData hdel =>
      have hsame : k.chan (.data p q) = _ :=
        (h.data p q).trans (Socket.stream_deliver hdel).symm
      have hk := h.setData p q hsame
      rw [Function.update_eq_self] at hk
      exact ⟨k, .refl k, hk⟩

end Abstracts

/-- The net of a system as it starts. -/
def Conf.netStart (s₀ : Dsys P σ) : KahnState (Wire.Msg P) (Agent.Local P σ) where
  loc
    | .comp q => s₀.comp q
    | .service p q => (s₀.service p q).serving
  chan
    | .ring p c i => (s₀.ring? p c i).elim [] Mc121.contents
    | .request q p => (s₀.requests q p).stream
    | .data p q => (s₀.data p q).stream

theorem abstracts_netStart (s₀ : Dsys P σ) :
    Abstracts (conf.net A prog s₀).cap s₀ (Conf.netStart s₀) where
  comp _ := rfl
  service _ _ := rfl
  ring _ _ _ _ hring := congrArg (fun o => Option.elim o [] Mc121.contents) hring
  size _ _ _ _ hring := congrArg (Option.map Mc121.size) hring
  request _ _ := rfl
  data _ _ := rfl

/-- **Every run is a run of the net.** -/
theorem abstracts_of_reaches {fresh : Fresh P} {init : P → σ} (hconf : conf.Ordered)
    (hone : conf.OneToOne) (hs : Reaches (Dsys.step A conf prog) (Dsys.start conf fresh init) s) :
    s.Wf conf ∧ s.Plain conf ∧ ∃ k, Reaches (conf.net A prog (Dsys.start conf fresh init)).step
      (Conf.netStart (Dsys.start conf fresh init)) k ∧
      Abstracts (conf.net A prog (Dsys.start conf fresh init)).cap s k := by
  suffices h : ∃ k, Reaches (conf.net A prog (Dsys.start conf fresh init)).step
      (Conf.netStart (Dsys.start conf fresh init)) k ∧ s.Wf conf ∧ s.Plain conf ∧
      Abstracts (conf.net A prog (Dsys.start conf fresh init)).cap s k by
    obtain ⟨k, hk, hwf, hplain, habs⟩ := h
    exact ⟨hwf, hplain, k, hk, habs⟩
  refine hs.simulates (R := fun s k => s.Wf conf ∧ s.Plain conf ∧
    Abstracts (conf.net A prog (Dsys.start conf fresh init)).cap s k) ?_
    ⟨Dsys.wf_start conf fresh init, Dsys.plain_start conf fresh init, abstracts_netStart _⟩
  rintro s a t k ⟨hwf, hplain, h⟩ hstep
  have hmoves := Dsys.moves_of_step hstep
  obtain ⟨k', hk', h'⟩ := h.moves hconf hone hwf hplain hmoves
  exact ⟨k', hk', hwf.moves hmoves, hplain.moves hconf.ne_collectAny hmoves, h'⟩

/-- **What the gets of a process returned only grows.** -/
theorem Conf.gets_grow {cap : Wire P → Option ℕ} {chan : (w : Wire P) → List (Wire.Msg P w)} {q : P}
    {comp : Comp P σ} {x} (hx : Kahn.effect cap chan (conf.compOp A prog q comp) = some x) :
    comp.gets <+: x.1.gets := by
  simp only [Conf.compOp] at hx
  split at hx
  case h_1 =>
    split at hx
    · cases hx
    · obtain rfl := Option.some.inj hx
      exact List.prefix_rfl
  case h_2 =>
    obtain rfl := Option.some.inj hx
    simp only [Dsys.returns]
    split
    · exact List.prefix_append _ _
    · exact List.prefix_rfl
  case h_6 => cases hx
  all_goals
    obtain ⟨-, hx⟩ := Option.ite_none_right_eq_some.mp hx
    obtain rfl := Option.some.inj hx
    exact List.prefix_rfl

/-- **Schedule independence.**  Where sinks copy memory, nobody polls and a pipe has one consumer,
what the gets of a process returned so far, in any two runs, agrees. -/
theorem gets_agree (A : Arith) (conf : Conf P) (prog : P → Program σ) (fresh : Fresh P)
    (init : P → σ) (hconf : conf.Ordered) (hone : conf.OneToOne) (s t : Dsys P σ)
    (hs : Reaches (Dsys.step A conf prog) (Dsys.start conf fresh init) s)
    (ht : Reaches (Dsys.step A conf prog) (Dsys.start conf fresh init) t) (q : P) :
    (s.comp q).gets <+: (t.comp q).gets ∨ (t.comp q).gets <+: (s.comp q).gets := by
  obtain ⟨-, -, k, hk, habs⟩ := abstracts_of_reaches hconf hone hs
  obtain ⟨-, -, l, hl, habt⟩ := abstracts_of_reaches hconf hone ht
  rw [← habs.comp q, ← habt.comp q]
  exact Kahn.agree _ (a := .comp q) Conf.gets_grow hk hl

theorem ordered_fanConf {sink : Role} (hsink : sink ∈ [.pipe, .replicate, .spread])
    (plist : List (Fin 3)) : (fanConf sink .pipe plist).Ordered where
  matched := matched_fanConf _ _ _
  sinks p ch hch := by
    rw [mem_sinks_fanConf hch]
    exact hsink
  srcs q src hsrc := by
    rw [(mem_srcs_fanConf hsrc).2]
    exact List.mem_cons_self

/-- Two consumers, served in one order and in the other. -/
theorem gets_agree_replicate : ∃ s t : Dsys (Fin 3) ℕ,
    (s.comp 1).gets = [(0, [5])] ∧ (s.comp 2).gets = [] ∧
    (t.comp 1).gets = [(0, [5])] ∧ (t.comp 2).gets = [(0, [5])] ∧
    ∀ q, (s.comp q).gets <+: (t.comp q).gets ∨ (t.comp q).gets <+: (s.comp q).gets := by
  have hs : ∃ s, run (Dsys.step noArith (fanConf .replicate .pipe [1, 2])
      (fanProg [.put (.sink 0) (some [5]) 1] 1))
      (Dsys.start (fanConf .replicate .pipe [1, 2]) zeros fun _ => 0)
      [.comp 1, .comp 1, .deliverRequest 1 0, .recv 0 1, .comp 0, .comp 0, .serve 0 1,
        .deliverData 0 1, .comp 1, .comp 1] = some s ∧
      (s.comp 1).gets = [(0, [5])] ∧ (s.comp 2).gets = [] := ⟨_, rfl, rfl, rfl⟩
  have ht : ∃ t, run (Dsys.step noArith (fanConf .replicate .pipe [1, 2])
      (fanProg [.put (.sink 0) (some [5]) 1] 1))
      (Dsys.start (fanConf .replicate .pipe [1, 2]) zeros fun _ => 0)
      [.comp 0, .comp 0, .comp 0, .comp 2, .comp 2, .deliverRequest 2 0, .recv 0 2, .serve 0 2,
        .deliverData 0 2, .comp 2, .comp 2, .comp 1, .comp 1, .deliverRequest 1 0, .recv 0 1,
        .serve 0 1, .deliverData 0 1, .comp 1, .comp 1] = some t ∧
      (t.comp 1).gets = [(0, [5])] ∧ (t.comp 2).gets = [(0, [5])] := ⟨_, rfl, rfl, rfl⟩
  obtain ⟨s, hs, hs₁, hs₂⟩ := hs
  obtain ⟨t, ht, ht₁, ht₂⟩ := ht
  have hone : (fanConf .replicate .pipe [1, 2]).OneToOne := by
    intro p ch hch hrole
    rw [mem_sinks_fanConf hch] at hrole
    cases hrole
  exact ⟨s, t, hs₁, hs₂, ht₁, ht₂, gets_agree _ _ _ _ _ (ordered_fanConf (by decide) _) hone
    s t ⟨_, hs⟩ ⟨_, ht⟩⟩

/-- **A pipe with two consumers.**  What one of them gets depends on whether the other came
first. -/
theorem gets_differ : (fanConf .pipe .pipe [1, 2]).Ordered ∧ ∃ s t,
    Reaches (Dsys.step noArith (fanConf .pipe .pipe [1, 2])
      (fanProg [.put (.sink 0) (some [5, 6]) 2] 1))
      (Dsys.start (fanConf .pipe .pipe [1, 2]) zeros fun _ => 0) s ∧
    Reaches (Dsys.step noArith (fanConf .pipe .pipe [1, 2])
      (fanProg [.put (.sink 0) (some [5, 6]) 2] 1))
      (Dsys.start (fanConf .pipe .pipe [1, 2]) zeros fun _ => 0) t ∧
    ¬ ((s.comp 1).gets <+: (t.comp 1).gets ∨ (t.comp 1).gets <+: (s.comp 1).gets) := by
  have hs : ∃ s, run (Dsys.step noArith (fanConf .pipe .pipe [1, 2])
      (fanProg [.put (.sink 0) (some [5, 6]) 2] 1))
      (Dsys.start (fanConf .pipe .pipe [1, 2]) zeros fun _ => 0)
      [.comp 0, .comp 0, .comp 0, .comp 1, .comp 1, .deliverRequest 1 0, .recv 0 1, .serve 0 1,
        .deliverData 0 1, .comp 1, .comp 1] = some s ∧ (s.comp 1).gets = [(0, [5])] :=
    ⟨_, rfl, rfl⟩
  have ht : ∃ t, run (Dsys.step noArith (fanConf .pipe .pipe [1, 2])
      (fanProg [.put (.sink 0) (some [5, 6]) 2] 1))
      (Dsys.start (fanConf .pipe .pipe [1, 2]) zeros fun _ => 0)
      [.comp 0, .comp 0, .comp 0, .comp 2, .comp 2, .deliverRequest 2 0, .recv 0 2, .serve 0 2,
        .comp 1, .comp 1, .deliverRequest 1 0, .recv 0 1, .serve 0 1, .deliverData 0 1, .comp 1,
        .comp 1] = some t ∧ (t.comp 1).gets = [(0, [6])] := ⟨_, rfl, rfl⟩
  obtain ⟨s, hs, hs₁⟩ := hs
  obtain ⟨t, ht, ht₁⟩ := ht
  refine ⟨ordered_fanConf (by decide) _, s, t, ⟨_, hs⟩, ⟨_, ht⟩, ?_⟩
  rw [hs₁, ht₁]
  decide

end Libdsys
