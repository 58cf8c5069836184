import Libdsys.Dsys.Progress
import Mathlib.Algebra.BigOperators.Ring.Finset
import Mathlib.Algebra.Order.BigOperators.Group.Finset

/-!
# Dsys/Termination — if one schedule ends, all do

A run of the net to its end is as long as any other.  The system makes a step of the net whenever
one of its threads moves; all it does besides is to deliver what was sent, and each move sends less
than `2 ^ 64` bytes.

* `Moves.thread` — a thread that moves is somewhere else.
* `Conf.runs_bounded` — so the runs of a system whose net has a run to an end are bounded.
* `Conf.allEnd_of_net` — and all end where that run does.
-/

open Machinery

namespace Libdsys

variable {P σ α : Type}

/-! ## A call goes on -/

theorem ne_put (c i : ℕ) (bs : List Byte) (m : Micro P α) : m ≠ .put c i bs m := by
  intro h
  have hsize := congrArg sizeOf h
  simp at hsize

theorem ne_request (p : P) (r : GetRequest) (m : Micro P α) : m ≠ .request p r m := by
  intro h
  have hsize := congrArg sizeOf h
  simp at hsize

/-- What a call does after a read is not the read. -/
theorem ne_read (m : Micro P α) : ∀ (p : P) (n : ℕ) (next : List Byte → Micro P α),
    m = .read p n next → ∀ bs, next bs ≠ m := by
  induction m with
  | done | fault | put | commit | retry | fill | request | poll =>
    intro p n next h
    cases h
  | read p n next ih =>
    rintro p' n' next' h bs hbs
    obtain ⟨rfl, rfl, rfl⟩ := Micro.read.inj h
    exact ih bs p n next hbs bs rfl

namespace Dsys

/-! ## What a thread sends -/

/-- How many items of a socket are on their way. -/
def flight (s : Dsys P σ) : P × P ⊕ P × P → ℕ
  | .inl (q, p) => (s.requests q p).inFlight.length
  | .inr (p, q) => (s.data p q).inFlight.length

end Dsys

/-- The arrival of an item. -/
def DsysAct.delivers : DsysAct P → Bool
  | .deliverRequest _ _ | .deliverData _ _ => true
  | _ => false

namespace Dsys

variable [DecidableEq P] {A : Arith} {conf : Conf P} {prog : P → Program σ} {s s' : Dsys P σ}
  {a : DsysAct P}

/-- **A thread that moves is somewhere else.** -/
theorem Moves.thread (h : Moves A conf prog s a s') (ha : a.delivers = false)
    (hconf : conf.Ordered) (hwf : s.Wf conf) (hplain : s.Plain conf) :
    (∃ q, s'.comp q ≠ s.comp q) ∨ ∃ p q, (s'.service p q).serving ≠ (s.service p q).serving := by
  have hmicro {q : P} {m m' : Micro P (ℤ × List Byte)} {t : Dsys P σ}
      (hm : (s.comp q).micro = some m) (ht : (t.comp q).micro = some m') (hne : m' ≠ m) :
      ∃ q, t.comp q ≠ s.comp q := by
    refine ⟨q, fun heq => hne ?_⟩
    rw [heq, hm] at ht
    exact (Option.some.inj ht).symm
  cases h with
  | @call q call hm hcall =>
    refine .inl ⟨q, fun heq => ?_⟩
    have hsome := congrArg Comp.micro heq
    simp [hm] at hsome
  | @returns q out hm =>
    refine .inl ⟨q, fun heq => ?_⟩
    have hnone := congrArg Comp.micro heq
    simp [hm, Dsys.returns] at hnone
  | @queue q micro c queue queue' next hm hq hon =>
    obtain ⟨ch, hch, hof⟩ := hwf.queues q c queue hq
    obtain ⟨i, bs, rfl, -⟩ := OnQueue.exists_put hon (hconf.copies hch hof)
    exact .inl (hmicro hm (by simp) (ne_put _ _ _ _))
  | @request q p r next hm hpq => exact .inl (hmicro hm (by simp) (ne_request _ _ _))
  | @read q p n next bs socket hm hread =>
    exact .inl (hmicro hm (by simp) (ne_read _ _ _ _ rfl bs))
  | poll hm | pollAgain hm => exact (hplain.micro _ _ hm).elim
  | @recv p q r rs socket hidle htake =>
    refine .inr ⟨p, q, ?_⟩
    simp [Service.serving, hidle]
  | @sent p q r link queue queue' fd hserve =>
    obtain ⟨hr, -⟩ := serving_eq_some.mp hserve
    refine .inr ⟨p, q, ?_⟩
    simp [answered, Service.serving, hr]
  | @refused p q r link queue fd hserve =>
    obtain ⟨hr, -⟩ := serving_eq_some.mp hserve
    refine .inr ⟨p, q, ?_⟩
    simp [answered, Service.serving, hr]
  | deliverRequest | deliverData => cases ha

omit [DecidableEq P] in
/-- What is on its way, where one socket may have more. -/
theorem flight_eq_add {s s' : Dsys P σ} {w : P × P ⊕ P × P} {m : ℕ}
    (hw : s'.flight w = s.flight w + m)
    (h : ∀ w', w' ≠ w → s'.flight w' = s.flight w') (F : Finset (P × P ⊕ P × P)) :
    ∑ w ∈ F, s'.flight w ≤ ∑ w ∈ F, s.flight w + m := by
  classical
  calc ∑ w ∈ F, s'.flight w
      ≤ ∑ w' ∈ F, (s.flight w' + if w' = w then m else 0) := by
        refine Finset.sum_le_sum fun w' _ => ?_
        by_cases hww : w' = w
        · subst hww
          rw [hw, if_pos rfl]
        · rw [h w' hww]
          exact Nat.le_add_right _ _
    _ = ∑ w ∈ F, s.flight w + ∑ w' ∈ F, if w' = w then m else 0 := Finset.sum_add_distrib
    _ ≤ ∑ w ∈ F, s.flight w + m := by
        rw [Finset.sum_ite_eq']
        split
        · exact le_rfl
        · exact Nat.add_le_add_left (Nat.zero_le m) _

/-- **It sends at most `2 ^ 64` bytes.** -/
theorem Moves.flight (h : Moves A conf prog s a s') (ha : a.delivers = false)
    (hconf : conf.Ordered) (hwf : s.Wf conf) (hplain : s.Plain conf)
    (F : Finset (P × P ⊕ P × P)) :
    ∑ w ∈ F, s'.flight w ≤ ∑ w ∈ F, s.flight w + 2 ^ 64 := by
  have hsame {t : Dsys P σ} (ht : ∀ w, t.flight w = s.flight w) :
      ∑ w ∈ F, t.flight w ≤ ∑ w ∈ F, s.flight w + 2 ^ 64 := by
    rw [Finset.sum_congr rfl fun w _ => ht w]
    exact Nat.le_add_right _ _
  cases h with
  | call | returns | queue | poll | pollAgain => exact hsame fun w => by cases w <;> rfl
  | @request q p r next hm hpq =>
    refine (flight_eq_add (w := .inl (q, p)) (m := 1) ?_ (fun w' hw' => ?_) F).trans
      (Nat.add_le_add_left Nat.one_le_two_pow _)
    · simp [Dsys.flight, Socket.send]
    · rcases w' with ⟨q', p'⟩ | ⟨p', q'⟩
      · have hne : ¬(q' = q ∧ p' = p) := fun heq => hw' (by rw [heq.1, heq.2])
        simp [Dsys.flight, hne]
      · rfl
  | @read q p n next bs socket hm hread =>
    refine hsame fun w => ?_
    rcases w with ⟨q', p'⟩ | ⟨p', q'⟩
    · rfl
    · have hsocket : socket.inFlight = (s.data p q).inFlight := by
        obtain ⟨-, hx⟩ := Option.ite_none_right_eq_some.mp hread
        obtain ⟨-, rfl⟩ := Prod.mk.inj (Option.some.inj hx)
        rfl
      by_cases hpq : p' = p ∧ q' = q
      · obtain ⟨rfl, rfl⟩ := hpq
        simp [Dsys.flight, hsocket]
      · simp [Dsys.flight, hpq]
  | @recv p q r rs socket hidle htake =>
    refine hsame fun w => ?_
    rcases w with ⟨q', p'⟩ | ⟨p', q'⟩
    · have hsocket : socket.inFlight = (s.requests q p).inFlight := by
        obtain ⟨-, hx⟩ := Option.ite_none_right_eq_some.mp htake
        obtain ⟨-, rfl⟩ := Prod.mk.inj (Option.some.inj hx)
        rfl
      by_cases hqp : q' = q ∧ p' = p
      · obtain ⟨rfl, rfl⟩ := hqp
        simp [Dsys.flight, hsocket]
      · simp [Dsys.flight, hqp]
    · rfl
  | @sent p q r link queue queue' fd hserve =>
    have hfd : fd.length ≤ 2 ^ 64 := by
      obtain ⟨hr, -⟩ := serving_eq_some.mp hserve
      obtain ⟨hcond, hasks⟩ := hplain.pending p q r (by simp [pending, hr])
      obtain ⟨src, hsrc, hasks⟩ := List.mem_flatMap.mp hasks
      obtain ⟨ch, hch, -, hq, hof, hsend⟩ := hwf.exists_served hconf.matched hserve hsrc hasks
      obtain ⟨ring, hring⟩ := hof.exists_ring (hconf.copies hch hof) hq
      rw [hof.send_eq hring, hcond, Option.some.injEq] at hsend
      split at hsend
      case isTrue hlt => cases hsend
      case isFalse hlt =>
        obtain ⟨-, rfl⟩ := SendOutcome.sent.inj hsend
        have hlt : sizeMul ch.dtype.bytes r.dunits < 2 ^ 64 := Nat.mod_lt _ (Nat.two_pow_pos 64)
        simp only [preamble, Bool.false_eq_true, if_false, List.nil_append, List.length_take]
        omega
    refine (flight_eq_add (w := .inr (p, q)) (m := fd.length) ?_ (fun w' hw' => ?_) F).trans
      (Nat.add_le_add_left hfd _)
    · simp [Dsys.flight, answered, Socket.send]
    · rcases w' with ⟨q', p'⟩ | ⟨p', q'⟩
      · rfl
      · have hne : ¬(p' = p ∧ q' = q) := fun heq => hw' (by rw [heq.1, heq.2])
        simp [Dsys.flight, answered, hne]
  | @refused p q r link queue fd hserve =>
    -- Only conditional requests are refused.
    obtain ⟨hr, -⟩ := serving_eq_some.mp hserve
    obtain ⟨hcond, hasks⟩ := hplain.pending p q r (by simp [pending, hr])
    obtain ⟨src, hsrc, hasks⟩ := List.mem_flatMap.mp hasks
    obtain ⟨ch, hch, -, hq, hof, hsend⟩ := hwf.exists_served hconf.matched hserve hsrc hasks
    obtain ⟨ring, hring⟩ := hof.exists_ring (hconf.copies hch hof) hq
    rw [hof.send_eq hring, hcond, Option.some.injEq] at hsend
    split at hsend <;> cases hsend
  | deliverRequest | deliverData => cases ha

/-- **An arrival takes one item from one socket.** -/
theorem Moves.arrives (h : Moves A conf prog s a s') (ha : a.delivers = true) :
    ∃ w, s.flight w = s'.flight w + 1 ∧ ∀ w', w' ≠ w → s'.flight w' = s.flight w' := by
  have hdeliver {β : Type} {socket socket' : Socket β} (hdel : socket.deliver? = some socket') :
      socket.inFlight.length = socket'.inFlight.length + 1 := by
    obtain ⟨inFlight, delivered⟩ := socket
    cases inFlight with
    | nil => cases hdel
    | cons b bs =>
      obtain rfl := Option.some.inj hdel
      rfl
  cases h with
  | @deliverRequest q p socket hdel =>
    refine ⟨.inl (q, p), ?_, fun w' hw' => ?_⟩
    · simp [Dsys.flight, hdeliver hdel]
    · rcases w' with ⟨q', p'⟩ | ⟨p', q'⟩
      · have hne : ¬(q' = q ∧ p' = p) := fun heq => hw' (by rw [heq.1, heq.2])
        simp [Dsys.flight, hne]
      · rfl
  | @deliverData p q socket hdel =>
    refine ⟨.inr (p, q), ?_, fun w' hw' => ?_⟩
    · simp [Dsys.flight, hdeliver hdel]
    · rcases w' with ⟨q', p'⟩ | ⟨p', q'⟩
      · rfl
      · have hne : ¬(p' = p ∧ q' = q) := fun heq => hw' (by rw [heq.1, heq.2])
        simp [Dsys.flight, hne]
  | _ => cases ha

end Dsys

/-! ## Runs are bounded -/

section Bounded

variable [DecidableEq P] {A : Arith} {conf : Conf P} {prog : P → Program σ} {s s₀ : Dsys P σ}

/-- How many steps of a run are arrivals. -/
def arrivals (as : List (DsysAct P)) : ℕ := as.countP DsysAct.delivers

/-- How many are moves of threads. -/
def moves (as : List (DsysAct P)) : ℕ := as.countP (!·.delivers)

omit [DecidableEq P] in
theorem length_eq_moves (as : List (DsysAct P)) : as.length = moves as + arrivals as := by
  rw [moves, arrivals, Nat.add_comm, List.length_eq_countP_add_countP DsysAct.delivers]
  refine congrArg (_ + ·) (List.countP_congr fun a _ => ?_)
  simp

/-- **What a run stands for**: a run of the net with a step for every move of a thread; and what is
on its way or has arrived was sent by these. -/
structure Paid (A : Arith) (conf : Conf P) (prog : P → Program σ) (s₀ s : Dsys P σ)
    (as : List (DsysAct P)) : Prop where
  wf : s.Wf conf
  plain : s.Plain conf
  net : ∃ ns k, run (conf.net A prog s₀).step (Conf.netStart s₀) ns = some k ∧
    Abstracts (conf.net A prog s₀).cap s k ∧ moves as ≤ ns.length
  sent : ∀ F : Finset (P × P ⊕ P × P),
    ∑ w ∈ F, s.flight w + arrivals as ≤ 2 ^ 64 * moves as

/-- A step more. -/
theorem Paid.step {as : List (DsysAct P)} {a : DsysAct P} {s' : Dsys P σ}
    (h : Paid A conf prog s₀ s as) (hconf : conf.Ordered) (hone : conf.OneToOne)
    (hstep : s.step A conf prog a = some s') : Paid A conf prog s₀ s' (as ++ [a]) := by
  have hmoves := Dsys.moves_of_step hstep
  obtain ⟨ns, k, hk, habs, hle⟩ := h.net
  obtain ⟨k', hk', habs'⟩ := habs.moves hconf hone h.wf h.plain hmoves
  refine ⟨h.wf.moves hmoves, h.plain.moves hconf.ne_collectAny hmoves, ?_, fun F => ?_⟩
  · obtain ⟨ns', hns'⟩ := hk'
    refine ⟨ns ++ ns', k', by rw [run_append, hk]; exact hns', habs', ?_⟩
    cases ha : a.delivers with
    | true =>
      have hsame : moves (as ++ [a]) = moves as := by simp [moves, ha]
      rw [hsame, List.length_append]
      omega
    | false =>
      have hone_more : moves (as ++ [a]) = moves as + 1 := by simp [moves, ha]
      -- The thread is somewhere else, so the run of the net has a step.
      have hpos : ns' ≠ [] := by
        rintro rfl
        obtain rfl : k = k' := Option.some.inj hns'
        obtain ⟨q, hq⟩ | ⟨p, q, hpq⟩ := hmoves.thread ha hconf h.wf h.plain
        · exact hq ((habs'.comp q).symm.trans (habs.comp q))
        · exact hpq ((habs'.service p q).symm.trans (habs.service p q))
      have := List.length_pos_iff.mpr hpos
      rw [hone_more, List.length_append]
      omega
  · have hsent := h.sent
    cases ha : a.delivers with
    | true =>
      obtain ⟨w, hw, hothers⟩ := hmoves.arrives ha
      have hmore : arrivals (as ++ [a]) = arrivals as + 1 := by simp [arrivals, ha]
      have hsame : moves (as ++ [a]) = moves as := by simp [moves, ha]
      classical
      have hF := hsent (insert w F)
      have hsum : ∑ w' ∈ insert w F, s.flight w' = ∑ w' ∈ insert w F, s'.flight w' + 1 := by
        have hrest : ∑ w' ∈ (insert w F).erase w, s'.flight w' =
            ∑ w' ∈ (insert w F).erase w, s.flight w' :=
          Finset.sum_congr rfl fun w' hw' => hothers w' (Finset.ne_of_mem_erase hw')
        have hall := Finset.add_sum_erase _ s.flight (Finset.mem_insert_self w F)
        have hall' := Finset.add_sum_erase _ s'.flight (Finset.mem_insert_self w F)
        omega
      have hsub : ∑ w' ∈ F, s'.flight w' ≤ ∑ w' ∈ insert w F, s'.flight w' :=
        Finset.sum_le_sum_of_subset (Finset.subset_insert w F)
      rw [hmore, hsame]
      omega
    | false =>
      have hsame : arrivals (as ++ [a]) = arrivals as := by simp [arrivals, ha]
      have hmore : moves (as ++ [a]) = moves as + 1 := by simp [moves, ha]
      have hflight := hmoves.flight ha hconf h.wf h.plain F
      have hF := hsent F
      rw [hsame, hmore, Nat.mul_succ]
      omega

theorem paid_of_run {fresh : Fresh P} {init : P → σ} (hconf : conf.Ordered)
    (hone : conf.OneToOne) {as : List (DsysAct P)}
    (hrun : run (Dsys.step A conf prog) (Dsys.start conf fresh init) as = some s) :
    Paid A conf prog (Dsys.start conf fresh init) s as := by
  induction as using List.reverseRecOn generalizing s with
  | nil =>
    obtain rfl : Dsys.start conf fresh init = s := Option.some.inj hrun
    refine ⟨Dsys.wf_start _ _ _, Dsys.plain_start _ _ _,
      ⟨[], _, rfl, abstracts_netStart _, le_rfl⟩, fun F => ?_⟩
    have hnone : ∑ w ∈ F, (Dsys.start conf fresh init).flight w = 0 :=
      Finset.sum_eq_zero fun w _ => by cases w <;> rfl
    rw [hnone]
    rfl
  | append_singleton as a ih =>
    rw [run_append, Option.bind_eq_some_iff] at hrun
    obtain ⟨t, ht, hlast⟩ := hrun
    simp only [run_cons, run_nil, Option.bind_fun_some] at hlast
    exact (ih ht).step hconf hone hlast

/-- **Where one run of the net ends, the runs of the system are bounded.** -/
theorem Conf.runs_bounded {fresh : Fresh P} {init : P → σ} (hconf : conf.Ordered)
    (hone : conf.OneToOne) {final : KahnState (Wire.Msg P) (Agent.Local P σ)}
    (hfinal : Reaches (conf.net A prog (Dsys.start conf fresh init)).step
      (Conf.netStart (Dsys.start conf fresh init)) final)
    (hhalt : ∀ a, (conf.net A prog (Dsys.start conf fresh init)).step final a = none) :
    ∃ B, ∀ as s, run (Dsys.step A conf prog) (Dsys.start conf fresh init) as = some s →
      as.length ≤ B := by
  obtain ⟨ms, hms⟩ := hfinal
  refine ⟨ms.length + 2 ^ 64 * ms.length, fun as s hrun => ?_⟩
  have hpaid := paid_of_run hconf hone hrun
  obtain ⟨ns, k, hns, -, hle⟩ := hpaid.net
  obtain ⟨rest, -, hlen⟩ := (Kahn.diamond _).run_length hms hhalt hns
  have hsent := hpaid.sent ∅
  rw [Finset.sum_empty, Nat.zero_add] at hsent
  have hmoves : moves as ≤ ms.length := by omega
  have hmul := Nat.mul_le_mul_left (2 ^ 64) hmoves
  rw [length_eq_moves]
  omega

end Bounded

/-! ## And end alike -/

/-- **All runs end, and all with the programs at `final`**: no run is longer than some bound, and
where nobody moves any more, every process is where `final` says. -/
def Conf.AllEnd [DecidableEq P] (A : Arith) (conf : Conf P) (prog : P → Program σ) (fresh : Fresh P)
    (init final : P → σ) : Prop :=
  ∃ B, ∀ as s, run (Dsys.step A conf prog) (Dsys.start conf fresh init) as = some s →
    as.length ≤ B ∧
      ((∀ a, s.step A conf prog a = none) → ∀ q, (s.comp q).state = final q)

/-- How they end is certain: some run does. -/
theorem Conf.AllEnd.unique [DecidableEq P] {A : Arith} {conf : Conf P} {prog : P → Program σ}
    {fresh : Fresh P} {init final final' : P → σ} (h : conf.AllEnd A prog fresh init final)
    (h' : conf.AllEnd A prog fresh init final') : final = final' := by
  obtain ⟨B, hB⟩ := h
  obtain ⟨B', hB'⟩ := h'
  obtain ⟨as, s, hrun, hend⟩ := exists_end fun as t hrun => (hB as t hrun).1
  exact funext fun q => ((hB as s hrun).2 hend q).symm.trans ((hB' as s hrun).2 hend q)

/-- **If one run of the net ends, all runs of the system do**, and as it does. -/
theorem Conf.allEnd_of_net [DecidableEq P] {A : Arith} {conf : Conf P} {prog : P → Program σ}
    {fresh : Fresh P} {init : P → σ} (hconf : conf.Ordered) (hone : conf.OneToOne)
    (hapart : conf.Apart) {final : KahnState (Wire.Msg P) (Agent.Local P σ)}
    (hfinal : Reaches (conf.net A prog (Dsys.start conf fresh init)).step
      (Conf.netStart (Dsys.start conf fresh init)) final)
    (hhalt : ∀ a, (conf.net A prog (Dsys.start conf fresh init)).step final a = none) :
    conf.AllEnd A prog fresh init fun q => (final.loc (.comp q)).state := by
  obtain ⟨B, hB⟩ := Conf.runs_bounded hconf hone hfinal hhalt
  refine ⟨B, fun as s hrun => ⟨hB as s hrun, fun hstuck q => ?_⟩⟩
  obtain ⟨k, hcomp, -, hmove⟩ := Conf.reaches_halted hconf hone hapart hfinal hhalt ⟨as, hrun⟩
  obtain rfl : k = final := by
    by_contra hne
    obtain ⟨b, s', hstep⟩ := hmove hne
    exact absurd hstep (by simp [hstuck b])
  exact congrArg Comp.state (hcomp q).symm

end Libdsys
