import Libdsys.Dsys.System
import Libdsys.Branch.Paired

/-!
# Dsys/Framing — is a data socket at a message boundary between two gets?

The service thread writes a reply and the get reads it, each by its own account of how long it is.
The memory-copy queues write what was asked for.  The no-copy queues write one unit, whatever was
asked for.

* `Queue.framed_iff` — when a reply is what its receiver reads.
* `Dsys.Aligned` — replies that were written and replies that are due are in step.
* `reply_framing` — where every reply is what its receiver reads, the sockets are at message
  boundaries between calls.
-/

open Machinery

namespace Libdsys

variable {P σ : Type}

/-! ## Replies -/

/-- **What the receiver of a reply reads**: its data or, where it starts with a flag, a 0 and no
data or a 1 and the data. -/
def Due.Framed (d : Due) (wrote : List Byte) : Prop :=
  match d with
  | ⟨false, sz⟩ => wrote.length = sz
  | ⟨true, sz⟩ => wrote = intBytes 0 ∨ ∃ u : List Byte, wrote = intBytes 1 ++ u ∧ u.length = sz

theorem framed_preamble_iff {condRecv : Bool} {sz : ℕ} {u : List Byte} :
    (Due.mk condRecv sz).Framed (preamble condRecv ++ u) ↔ u.length = sz := by
  cases condRecv with
  | false => rfl
  | true =>
    constructor
    · rintro (h | ⟨v, h, hv⟩)
      · exact absurd (show some (1 : Byte) = some 0 from congrArg List.head? h) (by decide)
      · rwa [List.append_cancel_left h]
    · exact fun h => .inr ⟨u, rfl, h⟩

/-- What a lock section wrote, if the send returns. -/
def SendOutcome.wrote? {τ : Type} : SendOutcome τ → Option (List Byte)
  | .sent _ fd => some fd
  | .refused fd => some fd
  | .wait => none

/-- **Memory is copied, one unit is asked for, or there is none.** -/
def Queue.Frames [DecidableEq P] (queue : Queue P) (remote : P) (r : GetRequest) : Prop :=
  queue.copies ∨ r.dunits = 1 ∨ r.condRecv ∧ ¬ queue.ready remote r.tag

instance [DecidableEq P] (queue : Queue P) (remote : P) (r : GetRequest) :
    Decidable (queue.Frames remote r) := inferInstanceAs (Decidable (_ ∨ _))

/-- **When a reply is what its receiver reads.** -/
theorem Queue.Of.framed_iff [DecidableEq P] {queue : Queue P} {ch : SinkChan P} (h : queue.Of ch)
    {remote : P} (hmem : remote ∈ ch.plist) {r : GetRequest}
    (hfit : ch.dtype.bytes * r.dunits < 2 ^ 64) {o : SendOutcome (Queue P)}
    (hs : queue.send remote r.tag (sizeMul ch.dtype.bytes r.dunits) r.condRecv = some o)
    {fd : List Byte} (hfd : o.wrote? = some fd) :
    (r.due ch.dtype.bytes).Framed fd ↔ queue.Frames remote r := by
  have hsz : sizeMul ch.dtype.bytes r.dunits = ch.dtype.bytes * r.dunits := Nat.mod_eq_of_lt hfit
  have hsent {u : List Byte} : (r.due ch.dtype.bytes).Framed (preamble r.condRecv ++ u) ↔
      u.length = ch.dtype.bytes * r.dunits := by
    rw [← hsz]
    exact framed_preamble_iff
  have hrefused : r.condRecv = true → (r.due ch.dtype.bytes).Framed (intBytes 0) := by
    intro hcond
    rw [GetRequest.due, hcond]
    exact .inl rfl
  cases hcopies : queue.copies with
  | false =>
    obtain ⟨hready, queue', u, -, hu, rfl⟩ | ⟨hready, rfl⟩ := h.send_slots hcopies hs
    · obtain rfl := Option.some.inj hfd
      rw [hsent, hu, Queue.Frames, hcopies, hready]
      have hpos := ch.dtype.bytes_pos
      constructor
      · intro h
        have hone : ch.dtype.bytes * r.dunits = ch.dtype.bytes * 1 := by
          rw [← h, Nat.mul_one]
        exact .inr (.inl (Nat.eq_of_mul_eq_mul_left hpos hone))
      · rintro (h | h | ⟨-, h⟩)
        · cases h
        · rw [h, Nat.mul_one]
        · exact absurd rfl h
    · cases hcond : r.condRecv with
      | false => simp [hcond, SendOutcome.wrote?] at hfd
      | true =>
        rw [hcond] at hfd
        obtain rfl := Option.some.inj hfd
        exact iff_of_true (hrefused hcond) (.inr (.inr ⟨hcond, by simp [hready]⟩))
  | true =>
    refine iff_of_true ?_ (.inl hcopies)
    obtain ⟨q, hq⟩ := h.exists_ring hcopies hmem
    rw [h.send_eq hq, Option.some.injEq] at hs
    split at hs
    case isTrue hlt =>
      cases hcond : r.condRecv with
      | false =>
        rw [hcond] at hs
        subst hs
        cases hfd
      | true =>
        rw [hcond] at hs
        subst hs
        obtain rfl := Option.some.inj hfd
        exact hrefused hcond
    case isFalse hlt =>
      subst hs
      obtain rfl := Option.some.inj hfd
      rw [hsent, List.length_take, (h.ring_wf hq).length_contents, ← hsz]
      omega

/-! ## Replies that are due and replies that were written -/

/-- **What was written and is not read, and what is asked and not answered, is what is due**, in
this order. -/
def Aligned (src : Src P) (p : P) (stream : List Byte) (pend : List GetRequest) (ds : List Due) :
    Prop :=
  ∃ replies : List (Due × List Byte), (∀ x ∈ replies, x.1.Framed x.2) ∧
    stream = (replies.map Prod.snd).flatten ∧
    ds = replies.map Prod.fst ++ pend.map (GetRequest.due src.dtype.bytes) ∧
    ∀ r ∈ pend, src.Asks p r

namespace Aligned

variable {src : Src P} {p : P} {stream : List Byte} {r : GetRequest} {pend : List GetRequest}
  {d : Due} {ds : List Due}

theorem empty (src : Src P) (p : P) : Aligned src p [] [] [] :=
  ⟨[], fun _ hx => absurd hx List.not_mem_nil, rfl, rfl, fun _ hr => absurd hr List.not_mem_nil⟩

/-- **Where nothing is due, the socket is at a message boundary.** -/
theorem eq_nil (h : Aligned src p stream pend []) : stream = [] ∧ pend = [] := by
  obtain ⟨replies, -, rfl, hds, -⟩ := h
  obtain ⟨hreplies, hpend⟩ := List.append_eq_nil_iff.mp hds.symm
  obtain rfl := List.map_eq_nil_iff.mp hreplies
  exact ⟨rfl, List.map_eq_nil_iff.mp hpend⟩

theorem request (h : Aligned src p stream pend ds) (hr : src.Asks p r) :
    Aligned src p stream (pend ++ [r]) (ds ++ [r.due src.dtype.bytes]) := by
  obtain ⟨replies, hframed, rfl, rfl, hpend⟩ := h
  refine ⟨replies, hframed, rfl, by simp, fun r' hr' => ?_⟩
  rcases List.mem_append.mp hr' with hmem | hmem
  · exact hpend r' hmem
  · exact List.mem_singleton.mp hmem ▸ hr

theorem asks (h : Aligned src p stream (r :: pend) ds) : src.Asks p r := by
  obtain ⟨-, -, -, -, hpend⟩ := h
  exact hpend r List.mem_cons_self

theorem answer (h : Aligned src p stream (r :: pend) ds) {fd : List Byte}
    (hfd : (r.due src.dtype.bytes).Framed fd) : Aligned src p (stream ++ fd) pend ds := by
  obtain ⟨replies, hframed, rfl, rfl, hpend⟩ := h
  refine ⟨replies ++ [(r.due src.dtype.bytes, fd)], fun x hx => ?_, by simp, by simp,
    fun r' hr' => hpend r' (List.mem_cons_of_mem _ hr')⟩
  rcases List.mem_append.mp hx with hmem | hmem
  · exact hframed x hmem
  · exact List.mem_singleton.mp hmem ▸ hfd

/-- **A read takes what is due**: it does not start before its reply was written. -/
theorem read (h : Aligned src p stream pend (d :: ds)) {n : ℕ} (hn : n ≤ stream.length)
    {next : List Byte → List Due → Prop} (hread : d.Read n next) :
    ∃ front, next (stream.take n) front ∧ Aligned src p (stream.drop n) pend (front ++ ds) := by
  obtain ⟨replies, hframed, rfl, hds, hpend⟩ := h
  cases replies with
  | nil =>
    -- The reply is not written, and it is not empty.
    cases pend with
    | nil => cases hds
    | cons r pend =>
      obtain ⟨rfl, -⟩ := List.cons.inj hds
      have hpos := (hpend r List.mem_cons_self).sizeMul_pos
      have hn0 : n = 0 := Nat.le_zero.mp hn
      obtain ⟨_ | _, tag, dunits⟩ := r
      · exact absurd (hread.1.symm.trans hn0) hpos.ne'
      · exact absurd (hread.1.symm.trans hn0) (by decide)
  | cons x replies =>
    obtain ⟨d', fd⟩ := x
    obtain ⟨rfl, rfl⟩ := List.cons.inj hds
    have hfd : d.Framed fd := hframed _ List.mem_cons_self
    have hrest : ∀ x ∈ replies, x.1.Framed x.2 :=
      fun x hx => hframed x (List.mem_cons_of_mem _ hx)
    simp only [List.map_cons, List.flatten_cons]
    obtain ⟨_ | _, sz⟩ := d
    · obtain ⟨rfl, hnext⟩ := hread
      have hlen : fd.length = n := hfd
      refine ⟨[], ?_, replies, hrest, List.drop_left' hlen, rfl, hpend⟩
      rw [List.take_left' hlen]
      exact hnext fd hlen
    · obtain ⟨rfl, hzero, hone⟩ := hread
      rcases hfd with rfl | ⟨u, rfl, hu⟩
      · exact ⟨[], hzero, replies, hrest, rfl, rfl, hpend⟩
      · exact ⟨[⟨false, sz⟩], hone, (⟨false, sz⟩, u) :: replies,
          List.forall_mem_cons.mpr ⟨hu, hrest⟩, rfl, rfl, hpend⟩

end Aligned

/-! ## The system -/

namespace Dsys

variable [DecidableEq P] {A : Arith} {conf : Conf P} {prog : P → Program σ} {s s' : Dsys P σ}
  {p q : P}

/-- **A process reads the replies to its requests**: wherever its call is, what it goes on to read
is what is due. -/
def InStep (conf : Conf P) (s : Dsys P σ) (q : P) : Prop :=
  ∃ src due, (src = .none ∨ src ∈ (conf.chans q).srcs) ∧
    (∀ p, Aligned src p (s.data p q).stream (s.pending p q) (due p)) ∧
    match (s.comp q).micro with
    | none => ∀ p, due p = []
    | some micro => micro.Paired src (fun _ due => ∀ p, due p = []) due

/-- **Between two calls the sockets are at message boundaries.** -/
theorem InStep.eq_nil (h : s.InStep conf q) (hm : (s.comp q).micro = none) (p : P) :
    (s.data p q).stream = [] ∧ s.pending p q = [] := by
  obtain ⟨src, due, -, haligned, hread⟩ := h
  rw [hm] at hread
  have hp := haligned p
  rw [hread p] at hp
  exact hp.eq_nil

theorem inStep_iff {micro : Micro P (ℤ × List Byte)} (hm : (s.comp q).micro = some micro) :
    s.InStep conf q ↔ ∃ src due, (src = .none ∨ src ∈ (conf.chans q).srcs) ∧
      (∀ p, Aligned src p (s.data p q).stream (s.pending p q) (due p)) ∧
      micro.Paired src (fun _ due => ∀ p, due p = []) due := by
  rw [InStep, hm]

theorem InStep.congr (h : s.InStep conf q) (hcomp : s'.comp q = s.comp q)
    (hdata : ∀ p, (s'.data p q).stream = (s.data p q).stream)
    (hpend : ∀ p, s'.pending p q = s.pending p q) : s'.InStep conf q := by
  obtain ⟨src, due, hsrc, haligned, hread⟩ := h
  refine ⟨src, due, hsrc, fun p => ?_, hcomp ▸ hread⟩
  rw [hdata, hpend]
  exact haligned p

theorem inStep_start (conf : Conf P) (fresh : Fresh P) (init : P → σ) (q : P) :
    (start conf fresh init).InStep conf q :=
  ⟨.none, fun _ => [], .inl rfl, fun p => Aligned.empty _ p, fun _ => rfl⟩

theorem OnQueue.paired {α : Type} {queue queue' : Queue P} {micro next : Micro P α} {c : ℕ}
    (h : OnQueue queue micro c queue' next) {src : Src P} {post : α → (P → List Due) → Prop}
    {due : P → List Due} (hread : micro.Paired src post due) : next.Paired src post due := by
  cases h <;> exact hread

/-- A step of a service thread that writes what its peer reads; any other step. -/
def framesReply (conf : Conf P) (s : Dsys P σ) : DsysAct P → Bool
  | .serve p q => (s.serving conf p q).all fun (r, _, queue, _) => queue.Frames q r
  | _ => true

/-- A reply that is what its peer reads keeps the peer in step. -/
theorem InStep.answered (h : s.InStep conf q) (hwf : s.Wf conf) (hmatched : conf.Matched)
    {r : GetRequest} {link : Link} {queue : Queue P} {o : SendOutcome (Queue P)} {fd : List Byte}
    (hserve : s.serving conf p q = some (r, link, queue, o)) (hfd : o.wrote? = some fd)
    (hframes : s.framesReply conf (.serve p q) = true) :
    (s.answered p q r link fd).InStep conf q := by
  obtain ⟨src, due, hsrc, haligned, hread⟩ := h
  obtain ⟨hr, -⟩ := serving_eq_some.mp hserve
  have hpend (p' : P) := pending_answered s p q p' q hr link fd
  have hp := haligned p
  rw [hpend, if_pos ⟨rfl, rfl⟩] at hp
  have hasks : src.Asks p r := hp.asks
  have hmem : src ∈ (conf.chans q).srcs := by
    rcases hsrc with rfl | hmem
    · exact absurd hasks.link List.not_mem_nil
    · exact hmem
  obtain ⟨ch, -, hbytes, hq, hof, hsend⟩ := hwf.exists_served hmatched hserve hmem hasks.link
  have hok : queue.Frames q r := by
    simpa only [framesReply, hserve, Option.all_some, decide_eq_true_eq] using hframes
  have hframed := (hof.framed_iff hq (hbytes ▸ hasks.fits) hsend hfd).mpr hok
  refine ⟨src, due, .inr hmem, fun p' => ?_, hread⟩
  rcases eq_or_ne p' p with rfl | hne
  · have hdata : ((s.answered p' q r link fd).data p' q).stream = (s.data p' q).stream ++ fd := by
      simp [Dsys.answered]
    rw [hdata]
    exact hp.answer (hbytes ▸ hframed)
  · have hdata : (s.answered p q r link fd).data p' q = s.data p' q := by
      simp [Dsys.answered, hne]
    have hp' := haligned p'
    rw [hpend, if_neg fun h => hne h.1] at hp'
    rw [hdata]
    exact hp'

/-- A call, a read or a request of `q` itself. -/
theorem InStep.moves_comp (h : s.InStep conf q)
    (hfits : ∀ st call, (prog q).call st = some call → call.Fits (conf.chans q))
    (hmoves : Moves A conf prog s (.comp q) s') : s'.InStep conf q := by
  cases hmoves with
  | @call _ call hm hcall =>
    obtain ⟨src, hsrc, hcomplete⟩ := exists_complete_bcCall A (hfits _ call hcall)
    refine (inStep_iff (by simp)).mpr ⟨src, fun _ => [], hsrc, fun p => ?_, hcomplete⟩
    obtain ⟨hdata, hpend⟩ := h.eq_nil hm p
    change Aligned src p (s.data p q).stream (s.pending p q) []
    rw [hdata, hpend]
    exact Aligned.empty src p
  | @returns _ out hm =>
    obtain ⟨src, due, hsrc, haligned, hread⟩ := (inStep_iff hm).mp h
    have hm' : ((s.setComp q (returns (prog q) (s.comp q) out)).comp q).micro = none := by
      simp [Dsys.returns]
    refine ⟨src, due, hsrc, haligned, ?_⟩
    rw [hm']
    exact hread
  | queue hm hq hon =>
    obtain ⟨src, due, hsrc, haligned, hread⟩ := (inStep_iff hm).mp h
    exact (inStep_iff (by simp)).mpr ⟨src, due, hsrc, haligned, hon.paired hread⟩
  | @request _ p r next hm hpq =>
    obtain ⟨src, due, hsrc, haligned, hasks, hread⟩ := (inStep_iff hm).mp h
    refine (inStep_iff (by simp)).mpr ⟨src, _, hsrc, fun p' => ?_, hread⟩
    have hpend := pending_request s p q p' q r
    change Aligned src p' (s.data p' q).stream
      ((s.setRequests q p ((s.requests q p).send [r])).pending p' q) _
    rcases eq_or_ne p' p with rfl | hne
    · rw [hpend, if_pos ⟨rfl, rfl⟩, Function.update_self]
      exact (haligned p').request hasks
    · rw [hpend, if_neg fun h => hne h.2, Function.update_of_ne hne]
      exact haligned p'
  | @read _ p n next bs socket hm htake =>
    obtain ⟨src, due, hsrc, haligned, d, ds, hdue, hread⟩ := (inStep_iff hm).mp h
    obtain ⟨hn, rfl, hstream⟩ := Socket.take?_eq_some htake
    have hp := haligned p
    rw [hdue] at hp
    obtain ⟨front, hnext, hp⟩ := hp.read (hn.trans (by simp [Socket.stream])) hread
    refine (inStep_iff (by simp)).mpr ⟨src, _, hsrc, fun p' => ?_, hnext⟩
    rcases eq_or_ne p' p with rfl | hne
    · rw [Function.update_self]
      simpa [pending, hstream] using hp
    · rw [Function.update_of_ne hne]
      simpa [pending, hne] using haligned p'
  | poll hm =>
    obtain ⟨src, due, hsrc, haligned, hread⟩ := (inStep_iff hm).mp h
    exact (inStep_iff (by simp)).mpr ⟨src, due, hsrc, haligned, paired_poll hread⟩
  | @pollAgain _ links sz du next hm =>
    obtain ⟨src, due, hsrc, haligned, hdue, hlinks, -, hread⟩ := (inStep_iff hm).mp h
    have hread' : (Micro.poll links links sz du next).Paired src
        (fun _ due => ∀ p, due p = []) due := ⟨hdue, hlinks, fun _ hx => hx, hread⟩
    exact (inStep_iff (by simp)).mpr ⟨src, due, hsrc, haligned, hread'⟩

/-- **A step whose reply, if it writes one, is what its peer reads keeps all processes in step.** -/
theorem InStep.moves (h : s.InStep conf q) (hwf : s.Wf conf) (hmatched : conf.Matched)
    (hfits : ∀ st call, (prog q).call st = some call → call.Fits (conf.chans q)) {a : DsysAct P}
    (hframes : s.framesReply conf a = true) (hmoves : Moves A conf prog s a s') :
    s'.InStep conf q := by
  cases a with
  | comp q' =>
    rcases eq_or_ne q q' with rfl | hne
    · exact h.moves_comp hfits hmoves
    · cases hmoves <;>
        exact h.congr (by simp [hne]) (fun p => by simp [hne]) fun p => by simp [pending, hne]
  | recv p q' =>
    cases hmoves with
    | recv hidle htake =>
      exact h.congr rfl (fun _ => rfl) fun p' => pending_recv s p q' p' q hidle htake
  | serve p q' =>
    rcases eq_or_ne q q' with rfl | hne
    · cases hmoves with
      | sent hserve =>
        exact (h.answered hwf hmatched hserve rfl hframes).congr rfl (fun _ => rfl) fun _ => rfl
      | refused hserve => exact h.answered hwf hmatched hserve rfl hframes
    · cases hmoves <;>
        exact h.congr rfl (fun p => by simp [Dsys.answered, hne])
          fun p => by simp [Dsys.answered, pending, hne]
  | deliverRequest q' p =>
    cases hmoves with
    | deliverRequest hdel =>
      exact h.congr rfl (fun _ => rfl) fun p' => pending_deliverRequest s p q' p' q hdel
  | deliverData p q' =>
    cases hmoves with
    | deliverData hdel =>
      refine h.congr rfl (fun p' => ?_) fun _ => rfl
      have hstream := Socket.stream_deliver hdel
      by_cases hpq : p' = p ∧ q = q'
      · obtain ⟨rfl, rfl⟩ := hpq
        simp [hstream]
      · simp [hpq]

end Dsys

/-- **Framing.**  In every reachable state the reply a service thread is about to write, for `d`
units of `b` bytes, is what its receiver reads — `d * b` bytes or, where it is conditional, a 0 or
a 1 and `d * b` bytes — exactly when the queue copies memory, one unit is asked for, or there is
none and it is conditional.  In every run with only such replies, between two calls nothing is on
the data sockets of a process and all its requests are answered. -/
theorem reply_framing [DecidableEq P] (A : Arith) (conf : Conf P) (prog : P → Program σ)
    (fresh : Fresh P) (init : P → σ) :
    (∀ s, Reaches (Dsys.step A conf prog) (Dsys.start conf fresh init) s →
      ∀ p q r link queue o fd ch, s.serving conf p q = some (r, link, queue, o) →
        o.wrote? = some fd → (conf.chans p).sinks[link.channel]? = some ch → q ∈ ch.plist →
        ch.dtype.bytes * r.dunits < 2 ^ 64 →
        ((Due.mk r.condRecv (r.dunits * ch.dtype.bytes)).Framed fd ↔ queue.Frames q r)) ∧
    (conf.Matched → (∀ q st call, (prog q).call st = some call → call.Fits (conf.chans q)) →
      ∀ s, Reaches (restrict (fun s a => Dsys.framesReply conf s a = true) (Dsys.step A conf prog))
        (Dsys.start conf fresh init) s →
      ∀ p q, (s.comp q).micro = none → (s.data p q).stream = [] ∧ s.pending p q = []) := by
  constructor
  · intro s hs p q r link queue o fd ch hserve hfd hch hq hfit
    have hwf : s.Wf conf := hs.invariant (fun s a t h ht => h.moves (Dsys.moves_of_step ht))
      (Dsys.wf_start conf fresh init)
    obtain ⟨-, -, hqueue, ch', hch', hsend⟩ := Dsys.serving_eq_some.mp hserve
    obtain rfl := Option.some.inj (hch.symm.trans hch')
    obtain ⟨ch'', hch'', hof⟩ := hwf.queues p link.channel queue hqueue
    obtain rfl := Option.some.inj (hch.symm.trans hch'')
    rw [← hof.framed_iff hq hfit hsend hfd, GetRequest.due, sizeMul, Nat.mod_eq_of_lt hfit,
      Nat.mul_comm]
  · intro hmatched hfits s hs p q hm
    have hinv : s.Wf conf ∧ ∀ q, s.InStep conf q := by
      refine hs.invariant (P := fun s => s.Wf conf ∧ ∀ q, s.InStep conf q) ?_
        ⟨Dsys.wf_start conf fresh init, Dsys.inStep_start conf fresh init⟩
      rintro s a t ⟨hwf, hin⟩ ht
      obtain ⟨hframes, ht⟩ := restrict_eq_some.mp ht
      have hmoves := Dsys.moves_of_step ht
      exact ⟨hwf.moves hmoves, fun q => (hin q).moves hwf hmatched (hfits q) hframes hmoves⟩
    exact (hinv.2 q).eq_nil hm p

/-- Two units of a pipe. -/
theorem reply_framing_pipe :
    (Due.mk false (2 * 1)).Framed [5, 6] ∧
    ∃ s : Dsys (Fin 3) ℕ, (s.comp 1).gets = [(0, [5, 6])] ∧
      ∀ p, (s.data p 1).stream = [] ∧ s.pending p 1 = [] := by
  have hframing := reply_framing noArith (fanConf .pipe .pipe [1])
    (fanProg [.put (.sink 0) (some [5, 6]) 2] 2) zeros fun _ => 0
  have hfits : ∀ q n call, (fanProg [.put (.sink 0) (some [5, 6]) 2] 2 q).call n = some call →
      call.Fits ((fanConf .pipe .pipe [1]).chans q) := by
    intro q n call hcall
    have hmem := List.mem_of_getElem? hcall
    split at hmem <;> obtain rfl := List.mem_singleton.mp hmem
    · trivial
    · intro src hsrc
      rw [(mem_srcs_fanConf (List.mem_of_getElem? hsrc)).2]
      decide
  have hrun : ∃ s, run (restrict (fun s a => Dsys.framesReply (fanConf .pipe .pipe [1]) s a = true)
      (Dsys.step noArith (fanConf .pipe .pipe [1]) (fanProg [.put (.sink 0) (some [5, 6]) 2] 2)))
      (Dsys.start (fanConf .pipe .pipe [1]) zeros fun _ => 0)
      [.comp 0, .comp 0, .comp 0, .comp 1, .comp 1, .deliverRequest 1 0, .recv 0 1, .serve 0 1,
        .deliverData 0 1, .deliverData 0 1, .comp 1, .comp 1] = some s ∧
      (s.comp 1).micro = none ∧ (s.comp 1).gets = [(0, [5, 6])] := ⟨_, rfl, rfl, rfl⟩
  constructor
  · refine (hframing.1 _ ⟨[.comp 0, .comp 0, .comp 0, .comp 1, .comp 1, .deliverRequest 1 0,
      .recv 0 1], rfl⟩ 0 1 ⟨false, 0, 2⟩ ⟨0, 0⟩ _ _ [5, 6] ⟨.pipe, [1], .char, 2⟩ rfl rfl rfl
      (by decide) (by decide)).mpr (.inl rfl)
  · obtain ⟨s, hs, hm, hgets⟩ := hrun
    exact ⟨s, hgets, fun p => hframing.2 (matched_fanConf _ _ _) hfits s ⟨_, hs⟩ p 1 hm⟩

/-- **A reply that is short.**  Two units are asked for, and one is written. -/
theorem reply_short :
    (fanConf .pipen .pipen [1]).Matched ∧
    ∃ s, Reaches (Dsys.step noArith (fanConf .pipen .pipen [1])
        (fanProg [.fill 0 0 [5], .commit (.sink 0)] 2))
        (Dsys.start (fanConf .pipen .pipen [1]) zeros fun _ => 0) s ∧
      ∃ link queue o, s.serving (fanConf .pipen .pipen [1]) 0 1 =
          some (⟨false, 0, 2⟩, link, queue, o) ∧
        o.wrote? = some [5] ∧ ¬ (Due.mk false (2 * 1)).Framed [5] :=
  ⟨matched_fanConf _ _ _, _, ⟨[.comp 0, .comp 0, .comp 0, .comp 0, .comp 0, .comp 0, .comp 1,
    .comp 1, .deliverRequest 1 0, .recv 0 1], rfl⟩, _, _, _, rfl, rfl,
    fun h => absurd (show [(5 : Byte)].length = 2 * 1 from h) (by decide)⟩

end Libdsys
