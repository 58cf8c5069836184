import Libdsys.Dsys.Streams

/-!
# Dsys/Progress — the system can move wherever its net can

A thread of the net waits for room or for messages and for nothing else.  The system has two more
ways to wait: for what is still on its way, which arrives, and for ring buffers that are not there,
which nobody asks for.

* `Dsys.InPlace` — the ring buffers that are put on are there, in every run.
* `Abstracts.enabled` — so where the net is not stuck, the system is not.
* `Conf.reaches_halted` — one run of the net to its end tells how all runs of the system end.
-/

open Machinery

namespace Libdsys

variable {P σ : Type}

/-- **Every sink has its queue**, and puts are on ring buffers that there are. -/
structure Dsys.InPlace (conf : Conf P) (s : Dsys P σ) : Prop where
  queues : ∀ p, (s.queues p).length = (conf.chans p).sinks.length
  puts : ∀ q m, (s.comp q).micro = some m →
    m.Puts fun c i => ∃ ch, (conf.chans q).sinks[c]? = some ch ∧ i < ch.width

/-- A process sends no request to itself. -/
def Conf.Apart (conf : Conf P) : Prop := ∀ q, ∀ x ∈ conf.asked q, x.1 ≠ q

namespace Dsys

variable {A : Arith} {conf : Conf P} {prog : P → Program σ} {s s' : Dsys P σ} {q : P}

theorem inPlace_start (conf : Conf P) (fresh : Fresh P) (init : P → σ) :
    (start conf fresh init).InPlace conf where
  queues p := by simp [start]
  puts q m hm := by cases hm

variable [DecidableEq P]

theorem OnQueue.puts {α : Type} {queue queue' : Queue P} {micro next : Micro P α} {c : ℕ}
    {ok : ℕ → ℕ → Prop} (h : OnQueue queue micro c queue' next) (hputs : micro.Puts ok) :
    next.Puts ok := by
  cases h with
  | put => exact hputs.2
  | _ => exact hputs

theorem InPlace.setMicro (h : s.InPlace conf) {m : Micro P (ℤ × List Byte)}
    (hm : m.Puts fun c i => ∃ ch, (conf.chans q).sinks[c]? = some ch ∧ i < ch.width) :
    (s.setMicro q m).InPlace conf where
  queues := h.queues
  puts q' m' hm' := by
    rcases eq_or_ne q' q with rfl | hne
    · simp only [comp_setMicro, if_true, Option.some.injEq] at hm'
      exact hm' ▸ hm
    · exact h.puts q' m' (by simpa [hne] using hm')

theorem InPlace.setQueue (h : s.InPlace conf) (p : P) (c : ℕ) (queue : Queue P) :
    (s.setQueue p c queue).InPlace conf where
  queues p' := by
    rw [queues_setQueue]
    split
    case isTrue hp => rw [List.length_set, ← hp, h.queues]
    case isFalse => exact h.queues p'
  puts := h.puts

/-- **Every step keeps them.** -/
theorem InPlace.moves (h : s.InPlace conf) {a : DsysAct P} (hmoves : Moves A conf prog s a s') :
    s'.InPlace conf := by
  cases hmoves with
  | call hm hcall => exact h.setMicro (puts_bcCall fun c x ch _ hch i hi => ⟨ch, hch, hi⟩)
  | @returns q out hm =>
    refine ⟨h.queues, fun q' m hm' => ?_⟩
    rcases eq_or_ne q' q with rfl | hne
    · simp [Dsys.returns] at hm'
    · exact h.puts q' m (by simpa [hne] using hm')
  | queue hm hq hon => exact (h.setQueue _ _ _).setMicro (hon.puts (h.puts _ _ hm))
  | @request q p r next hm hpq =>
    have hputs := h.puts q _ hm
    have hnext := h.setMicro (m := next) hputs
    exact ⟨h.queues, hnext.puts⟩
  | @read q p n next bs socket hm hread =>
    have hnext := h.setMicro (h.puts _ _ hm bs)
    exact ⟨h.queues, hnext.puts⟩
  | @poll q links p tag rest sz du next hm =>
    have hnext : ∀ bs, (next bs).Puts _ := h.puts _ _ hm
    refine h.setMicro fun flag => ?_
    dsimp only
    split
    · exact hnext
    · exact hnext
  | @pollAgain q links sz du next hm =>
    have hnext : ∀ bs, (next bs).Puts _ := h.puts _ _ hm
    exact h.setMicro hnext
  | recv | deliverRequest | deliverData | refused => exact ⟨h.queues, h.puts⟩
  | @sent p q r link queue queue' fd hserve =>
    have hqueues := h.setQueue p link.channel queue'
    exact ⟨hqueues.queues, h.puts⟩

theorem inPlace_of_reaches {fresh : Fresh P} {init : P → σ}
    (hs : Reaches (step A conf prog) (start conf fresh init) s) : s.InPlace conf :=
  hs.invariant (fun _ _ _ h hstep => h.moves (moves_of_step hstep))
    (inPlace_start conf fresh init)

omit [DecidableEq P] in
/-- **A channel that copies memory has its ring buffers.** -/
theorem InPlace.exists_ring (h : s.InPlace conf) (hwf : s.Wf conf) (hconf : conf.Ordered) {p : P}
    {c i : ℕ} {ch : SinkChan P} (hch : (conf.chans p).sinks[c]? = some ch) (hi : i < ch.width) :
    ∃ queue ring, (s.queues p)[c]? = some queue ∧ queue.Of ch ∧ queue.ring? i = some ring := by
  have hc : c < (s.queues p).length := by
    rw [h.queues]
    exact (List.getElem?_eq_some_iff.mp hch).1
  obtain ⟨ch', hch', hof⟩ := hwf.queues p c _ (List.getElem?_eq_getElem hc)
  obtain rfl := Option.some.inj (hch.symm.trans hch')
  refine ⟨(s.queues p)[c], ?_⟩
  have hcopies := hconf.copies hch hof
  have hrole := hconf.sinks p ch (List.mem_of_getElem? hch)
  rw [List.getElem?_eq_getElem hc]
  generalize (s.queues p)[c] = queue at hof hcopies
  obtain ⟨role, plist, dtype, dunits⟩ := ch
  cases queue with
  | nmc12m | farmn => cases hcopies
  | mc121 ring =>
    refine ⟨ring, rfl, hof, ?_⟩
    simp only [List.mem_cons, List.not_mem_nil, or_false] at hrole
    rcases hrole with rfl | rfl | rfl
    · obtain rfl : i = 0 := Nat.lt_one_iff.mp hi
      rfl
    · cases hof.1 _ rfl
    · cases hof.1 _ rfl
  | mc12m qs =>
    have hlt : i < qs.length := by
      rw [← List.length_map, hof.2.1]
      simp only [List.mem_cons, List.not_mem_nil, or_false] at hrole
      rcases hrole with rfl | rfl | rfl
      · cases hof.1 _ rfl
      · exact hi
      · exact hi
    exact ⟨qs[i].2, rfl, hof, by rw [Queue.ring?, List.getElem?_eq_getElem hlt, Option.map_some]⟩

end Dsys

/-! ## The net and the system -/

variable [DecidableEq P] {A : Arith} {conf : Conf P} {prog : P → Program σ} {s s₀ : Dsys P σ}

omit [DecidableEq P] in
/-- A put that has room is granted. -/
theorem Queue.Of.put_eq {queue : Queue P} {ch : SinkChan P} {i : ℕ} {ring : Mc121}
    (h : queue.Of ch) (hring : queue.ring? i = some ring) {bs : List Byte}
    (hroom : ring.bytesInbuff + bs.length ≤ ring.size) :
    queue.put i bs = some (queue.setRing i (ring.pushed bs)) := by
  have hlt : ¬ ring.size - ring.bytesInbuff < bs.length := by omega
  simp [Queue.put, hring, putqMc121_eq (h.ring_wf hring), if_neg hlt]

/-- A read waits for what was sent and is not read, which arrives. -/
theorem Socket.take?_or_deliver {β : Type} (socket : Socket β) {n : ℕ}
    (h : n ≤ socket.stream.length) :
    (∃ x, socket.take? n = some x ∧ x.1 = socket.stream.take n) ∨
      ∃ socket', socket.deliver? = some socket' := by
  by_cases hn : n ≤ socket.delivered.length
  · exact .inl ⟨_, if_pos hn, (List.take_append_of_le_length hn).symm⟩
  · right
    obtain ⟨inFlight, delivered⟩ := socket
    cases inFlight with
    | nil => simp [Socket.stream, hn] at h
    | cons b bs => exact ⟨_, rfl⟩

/-- A process that reads a ring buffer is among the consumers of its channel. -/
theorem Conf.mem_of_reader {p q : P} {c : ℕ} {ch : SinkChan P}
    (hch : (conf.chans p).sinks[c]? = some ch) (h : conf.reader p c (Conf.node ch q) = some q) :
    q ∈ ch.plist := by
  rw [reader, hch, Option.bind_eq_bind, Option.bind_some] at h
  split at h
  · exact List.mem_of_head? h
  · exact List.mem_of_getElem? h

theorem Conf.node_lt_width {q : P} {ch : SinkChan P} (hq : q ∈ ch.plist) :
    node ch q < ch.width := by
  obtain ⟨role, plist, dtype, dunits⟩ := ch
  have hlt := List.idxOf_lt_length_of_mem hq
  cases role
  case pipe => exact Nat.one_pos
  all_goals exact hlt

namespace Abstracts

variable {k k' : KahnState (Wire.Msg P) (Agent.Local P σ)} {p q : P}

/-- Where a computation thread of the net can move. -/
theorem enabled_comp (h : Abstracts (conf.net A prog s₀).cap s k) (hconf : conf.Ordered)
    (hapart : conf.Apart) (hwf : s.Wf conf) (hplain : s.Plain conf) (hin : s.InPlace conf)
    (hstep : (conf.net A prog s₀).step k (.comp q) = some k') :
    ∃ b s', s.step A conf prog b = some s' := by
  obtain ⟨x, hx, -⟩ := Option.map_eq_some_iff.mp hstep
  have hop : (conf.net A prog s₀).prog (.comp q) (k.loc (.comp q)) =
      conf.compOp A prog q (s.comp q) := by rw [h.comp]; rfl
  rw [hop] at hx
  cases hm : (s.comp q).micro with
  | none =>
    cases hcall : (prog q).call (s.comp q).state with
    | none => simp [Conf.compOp, hm, hcall, Kahn.effect] at hx
    | some call => exact ⟨.comp q, _, by simp only [Dsys.step, hm, hcall]; rfl⟩
  | some m =>
    have hcomp : s.step A conf prog (.comp q) = s.microStep (prog q) q m := by
      simp only [Dsys.step, hm]
    have hputs := hin.puts q m hm
    have hasks := hplain.micro q m hm
    cases m with
    | done out => exact ⟨.comp q, _, hcomp⟩
    | fault | commit | retry | fill | poll => simp [Conf.compOp, hm, Kahn.effect] at hx
    | put c i bs next =>
      obtain ⟨⟨ch, hch, hi⟩, -⟩ := hputs
      obtain ⟨queue, ring, hqueue, hof, hring⟩ := hin.exists_ring hwf hconf hch hi
      have hring' : s.ring? q c i = some ring := by
        rw [Dsys.ring?, hqueue]
        exact hring
      simp only [Conf.compOp, hm, Kahn.effect, Option.ite_none_right_eq_some] at hx
      have hroom := hx.1 _ (h.size q c i ring hring')
      rw [h.ring q c i ring hring', (hof.ring_wf hring).length_contents] at hroom
      have hput : s.microStep (prog q) q (.put c i bs next) =
          some ((s.setQueue q c (queue.setRing i (ring.pushed bs))).setMicro q next) := by
        simp only [Dsys.microStep, hqueue, hof.put_eq hring hroom, Option.bind_eq_bind,
          Option.bind_some, Option.pure_def]
      exact ⟨.comp q, _, hcomp.trans hput⟩
    | request p r next =>
      have hne : p ≠ q := hapart q _ hasks.2.1
      exact ⟨.comp q, _, hcomp.trans (if_neg hne)⟩
    | read p n next =>
      simp only [Conf.compOp, hm, Kahn.effect, Option.ite_none_right_eq_some] at hx
      obtain ⟨⟨bs, socket⟩, htake, -⟩ | ⟨socket, hdel⟩ :=
        (s.data p q).take?_or_deliver (h.data p q ▸ hx.1)
      · exact ⟨.comp q, _, hcomp.trans (by simp only [Dsys.microStep, htake]; rfl)⟩
      · exact ⟨.deliverData p q, _, by rw [Dsys.step, hdel]; rfl⟩

/-- Where a service thread of the net can move. -/
theorem enabled_service (h : Abstracts (conf.net A prog s₀).cap s k) (hconf : conf.Ordered)
    (hone : conf.OneToOne) (hwf : s.Wf conf) (hin : s.InPlace conf)
    (hstep : (conf.net A prog s₀).step k (.service p q) = some k') :
    ∃ b s', s.step A conf prog b = some s' := by
  obtain ⟨x, hx, -⟩ := Option.map_eq_some_iff.mp hstep
  have hop : (conf.net A prog s₀).prog (.service p q) (k.loc (.service p q)) =
      conf.serviceOp p q (s.service p q).serving := by rw [h.service]; rfl
  rw [hop, Service.serving] at hx
  cases hr : (s.service p q).request with
  | none =>
    simp only [Conf.serviceOp, hr, Kahn.effect, Option.ite_none_right_eq_some] at hx
    obtain ⟨⟨rs, socket⟩, htake, hrs⟩ | ⟨socket, hdel⟩ :=
      (s.requests q p).take?_or_deliver (h.request q p ▸ hx.1)
    · obtain ⟨r, rest, hcons⟩ := List.exists_cons_of_length_pos (h.request q p ▸ hx.1)
      obtain rfl : rs = [r] := by
        rw [show rs = _ from hrs, hcons]
        rfl
      exact ⟨.recv p q, _, by simp only [Dsys.step, hr, htake]; rfl⟩
    · exact ⟨.deliverRequest q p, _, by rw [Dsys.step, hdel]; rfl⟩
  | some r =>
    simp only [Conf.serviceOp, hr] at hx
    split at hx
    · cases hx
    · next link hlink =>
      split at hx
      · cases hx
      · next ch hch =>
        split at hx
        case isFalse => cases hx
        case isTrue hreader =>
          obtain ⟨hlen, -⟩ := Option.ite_none_right_eq_some.mp hx
          have hq := Conf.mem_of_reader hch hreader
          obtain ⟨queue, ring, hqueue, hof, hring⟩ :=
            hin.exists_ring hwf hconf hch (Conf.node_lt_width hq)
          obtain ⟨hnode, -⟩ := hconf.reader_node hone hch hof hq
          have hring' : s.ring? p link.channel (Conf.node ch q) = some ring := by
            rw [Dsys.ring?, hqueue]
            exact hring
          rw [h.ring _ _ _ _ hring', (hof.ring_wf hring).length_contents] at hlen
          have hsend : queue.send q r.tag (sizeMul ch.dtype.bytes r.dunits) r.condRecv =
              some (.sent (queue.setRing (queue.node q)
                (ring.popped (sizeMul ch.dtype.bytes r.dunits)))
                (preamble r.condRecv ++ ring.contents.take (sizeMul ch.dtype.bytes r.dunits))) := by
            rw [hof.send_eq (hnode ▸ hring), if_neg (not_lt.mpr hlen)]
          have hserve := Dsys.serving_eq_some.mpr ⟨hr, (hwf.serviceLink_eq p q r.tag).trans hlink,
            hqueue, ch, hch, hsend⟩
          exact ⟨.serve p q, _, by rw [Dsys.step, hserve]; rfl⟩

end Abstracts

/-- **Where the net is not stuck, the system is not.** -/
theorem Abstracts.enabled {k k' : KahnState (Wire.Msg P) (Agent.Local P σ)}
    (h : Abstracts (conf.net A prog s₀).cap s k) (hconf : conf.Ordered) (hone : conf.OneToOne)
    (hapart : conf.Apart) (hwf : s.Wf conf) (hplain : s.Plain conf) (hin : s.InPlace conf)
    {a : Agent P} (hstep : (conf.net A prog s₀).step k a = some k') :
    ∃ b s', s.step A conf prog b = some s' := by
  cases a with
  | comp q => exact h.enabled_comp hconf hapart hwf hplain hin hstep
  | service p q => exact h.enabled_service hconf hone hwf hin hstep

/-- **A system whose net can halt can only end there.**  Where the net has a run to a state in which
nobody moves, every run of the system stands for a part of it, and the system goes on until it is
there. -/
theorem Conf.reaches_halted {fresh : Fresh P} {init : P → σ} (hconf : conf.Ordered)
    (hone : conf.OneToOne) (hapart : conf.Apart) {final : KahnState (Wire.Msg P) (Agent.Local P σ)}
    (hfinal : Reaches (conf.net A prog (Dsys.start conf fresh init)).step
      (Conf.netStart (Dsys.start conf fresh init)) final)
    (hhalt : ∀ a, (conf.net A prog (Dsys.start conf fresh init)).step final a = none)
    (hs : Reaches (Dsys.step A conf prog) (Dsys.start conf fresh init) s) :
    ∃ k, (∀ q, k.loc (.comp q) = s.comp q) ∧
      Reaches (conf.net A prog (Dsys.start conf fresh init)).step k final ∧
      (k ≠ final → ∃ b s', s.step A conf prog b = some s') := by
  obtain ⟨hwf, hplain, k, hk, h⟩ := abstracts_of_reaches hconf hone hs
  have hrest := (Kahn.diamond _).reaches_halted hk hfinal hhalt
  refine ⟨k, h.comp, hrest, fun hne => ?_⟩
  obtain ⟨a, k', hstep⟩ := hrest.exists_step hne
  exact h.enabled hconf hone hapart hwf hplain (Dsys.inPlace_of_reaches hs) hstep

end Libdsys
