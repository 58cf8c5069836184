import Libdsys.Queue.Union

/-!
# Queue/Bounds — no lock section leaves its block

A no-copy queue is read and written through pointers that advance on their own.  They stand at the
start of a slot, and their index is that of a slot, whatever the producer and the service threads
do and in whatever order: so a send always ends, in an answer or in a wait.

* `QueueOp.run` — what other threads do to a queue in one lock section.
* `Queue.Sound.run` — no such section spoils it.
* `Queue.Sound.send_eq` — so a send writes data, or there is none: only then does it wait.
-/

open Machinery

namespace Libdsys

variable {P ι : Type}

/-- What the computation thread and other service threads do to a queue. -/
inductive QueueOp (P : Type)
  | put (i : ℕ) (bs : List Byte)
  | putEnter (count : ℕ)
  | putCheck
  | fill (off : ℕ) (bs : List Byte)
  | send (remote : P) (tag bytes : ℕ) (condRecv : Bool)

/-- The index the loop of a no-copy put tests. -/
def Queue.next : Queue P → ℕ
  | .nmc12m s => (s.1.vptr.rcidx + 1) % s.1.du
  | .farmn q => (q.pptr.rcidx + 1) % q.du
  | _ => 0

/-- The queue after a lock section of some other thread. -/
def QueueOp.run [DecidableEq P] (queue : Queue P) : QueueOp P → Option (Queue P)
  | .put i bs => queue.put i bs
  | .putEnter count => (queue.putEnter count).map Prod.fst
  | .putCheck => (queue.putCheck queue.next).map (·.getD queue)
  | .fill off bs => queue.fill off bs
  | .send remote tag bytes condRecv =>
    match queue.send remote tag bytes condRecv with
    | some (.sent queue _) => some queue
    | _ => none

/-! ## Slots -/

namespace Nmc12m

/-- A pointer stands at a slot, and its index is that of a slot. -/
def At (q : Nmc12m) (vptr : Vptr) : Prop :=
  vptr.rcidx < q.du ∧ ∃ m < q.du, vptr.var = m * q.size

/-- A no-copy queue and its pointers are inside their blocks. -/
structure Bounded (s : Linked ι) : Prop where
  pos : 0 < s.1.du
  rclen : s.1.du ≤ s.1.rc.length
  len : s.1.mem.length = s.1.du * s.1.size
  ends : s.1.memEnd = s.1.du * s.1.size
  producer : s.1.At s.1.vptr
  link : ∀ k, s.1.At (s.2 k)

variable {q : Nmc12m} {vptr : Vptr}

theorem At.advance (h : q.At vptr) (hends : q.memEnd = q.du * q.size) {rcidx : ℕ}
    (hidx : rcidx < q.du) : q.At ⟨Libdsys.advance vptr.var q.size q.memEnd, rcidx⟩ := by
  obtain ⟨-, m, hm, hvar⟩ := h
  have hpos : 0 < q.du := by omega
  refine ⟨hidx, (m + 1) % q.du, Nat.mod_lt _ hpos, ?_⟩
  rw [hvar, hends, ← advance_slot hpos, Nat.mod_eq_of_lt hm]

/-- The unit at a pointer is in the block. -/
theorem At.le (h : q.At vptr) (hlen : q.mem.length = q.du * q.size) :
    vptr.var + q.size ≤ q.mem.length := by
  obtain ⟨-, m, hm, hvar⟩ := h
  rw [hvar, hlen]
  exact slot_le q.size hm

theorem bounded_create (rawMem : ℕ → Byte) (rawRc : ℕ → ℕ) {du size : ℕ} (hdu : 0 < du)
    (hfits : du * size < 2 ^ 64) :
    Bounded (internalNmc12mCreate rawMem rawRc du size, fun _ : ι => linkVptr) where
  pos := hdu
  rclen := by simp [internalNmc12mCreate]
  len := by simp [internalNmc12mCreate, sizeMul_units hfits]
  ends := sizeMul_units hfits
  producer := ⟨hdu, 0, hdu, by simp [internalNmc12mCreate]⟩
  link _ := ⟨hdu, 0, hdu, by simp [linkVptr]⟩

namespace Bounded

variable [DecidableEq ι] {s s' : Linked ι}

theorem fill (h : Bounded s) {off : ℕ} {bs : List Byte}
    (hs : (nmc12mOps ι).fill s off bs = some s') : Bounded s' := by
  simp only [nmc12mOps, nmc12mFill, Option.map_eq_some_iff, Option.ite_none_right_eq_some] at hs
  obtain ⟨q', ⟨hoff, mem, hwrite, rfl⟩, rfl⟩ := hs
  have hin := h.producer.le h.len
  rw [writeAt_eq_some (by omega), Option.some.injEq] at hwrite
  refine { h with len := ?_ }
  rw [← h.len, ← hwrite]
  exact length_overlay (by omega)

theorem putEnter (h : Bounded s) {count i : ℕ}
    (hs : (nmc12mOps ι).putEnter s count = some (s', i)) : Bounded s' := by
  simp only [nmc12mOps, nmc12mPutEnter, Option.map_eq_some_iff, Option.ite_none_right_eq_some] at hs
  obtain ⟨⟨q', i'⟩, ⟨-, hq⟩, hs⟩ := hs
  obtain ⟨rfl, rfl⟩ := Prod.mk.inj (Option.some.inj hq)
  obtain ⟨rfl, -⟩ := Prod.mk.inj hs
  exact { h with
    rclen := by simpa using h.rclen
    producer := h.producer.advance h.ends h.producer.1 }

theorem putCheck (h : Bounded s) (hs : (nmc12mOps ι).putCheck s ((s.1.vptr.rcidx + 1) % s.1.du) =
    some (some s')) : Bounded s' := by
  simp only [nmc12mOps, nmc12mPutCheck, Option.map_map, Option.map_eq_some_iff] at hs
  obtain ⟨n, -, hs⟩ := hs
  obtain ⟨q', hq', rfl⟩ := Option.map_eq_some_iff.mp hs
  obtain ⟨-, ⟨⟩⟩ := Option.ite_none_right_eq_some.mp hq'
  exact { h with producer := ⟨Nat.mod_lt _ h.pos, h.producer.2⟩ }

/-- **A send finds its unit in the block.** -/
theorem send_eq (h : Bounded s) (k : ι) (fd : List Byte) (condRecv : Bool) :
    if s.1.ready (s.2 k) then
      ∃ s' u, Bounded s' ∧ s'.1.size = s.1.size ∧ u.length = s.1.size ∧
        (nmc12mOps ι).send s k fd condRecv = some (.sent s' (fd ++ preamble condRecv ++ u))
    else (nmc12mOps ι).send s k fd condRecv =
      some (if condRecv then .refused (fd ++ intBytes 0) else .wait) := by
  have hlt : (s.2 k).rcidx < s.1.rc.length := (h.link k).1.trans_le h.rclen
  obtain ⟨n, hn⟩ : ∃ n, s.1.rc[(s.2 k).rcidx]? = some n := ⟨_, List.getElem?_eq_getElem hlt⟩
  have hin := (h.link k).le h.len
  split
  case isTrue hready =>
    simp only [ready, List.getD_eq_getElem?_getD, hn, Option.getD_some, decide_eq_true_eq] at hready
    refine ⟨({ s.1 with rc := s.1.rc.set (s.2 k).rcidx (n - 1) }, Function.update s.2 k
      ⟨advance (s.2 k).var s.1.size s.1.memEnd, ((s.2 k).rcidx + 1) % s.1.du⟩),
      (s.1.mem.drop (s.2 k).var).take s.1.size, ?_, rfl, ?_,
      congrArg (Option.map _) (nmc12mSend_eq hn hready.1 hready.2 hin fd condRecv)⟩
    · refine { h with rclen := by simpa using h.rclen, link := fun k' => ?_ }
      change Nmc12m.At s.1 (Function.update s.2 k _ k')
      rcases eq_or_ne k' k with rfl | hne
      · rw [Function.update_self]
        exact (h.link k').advance h.ends (Nat.mod_lt _ h.pos)
      · rw [Function.update_of_ne hne]
        exact h.link k'
    · rw [List.length_take, List.length_drop]
      omega
  case isFalse hready =>
    simp only [ready, List.getD_eq_getElem?_getD, hn, Option.getD_some, decide_eq_true_eq] at hready
    have hsend : nmc12mSend s.1 fd (s.2 k) condRecv =
        some (if condRecv then .refused (fd ++ intBytes 0) else .wait) := by
      simp only [nmc12mSend, hn, Option.bind_eq_bind, Option.bind_some, if_neg hready]
      cases condRecv <;> rfl
    refine (congrArg (Option.map _) hsend).trans ?_
    cases condRecv <;> rfl

end Bounded

end Nmc12m

/-! ## Queues -/

namespace Queue

/-- A queue of channel `ch` inside its blocks. -/
structure Sound (ch : SinkChan P) (queue : Queue P) : Prop where
  of : queue.Of ch
  bounded : match queue with
    | mc121 _ | mc12m _ => True
    | nmc12m s => Nmc12m.Bounded s
    | farmn q => Nmc12m.Bounded q.queue

variable {ch : SinkChan P} {queue queue' : Queue P}

theorem sound_create (fresh : Fresh P) (p : P) (c : ℕ) (hfits : ch.fits) :
    (create fresh p c ch).Sound ch where
  of := of_create fresh p c ch
  bounded := by
    have hslots (ι : Type) (hcopies : ch.copies = false) : Nmc12m.Bounded
        (internalNmc12mCreate (fresh.mem p c 0) (fresh.rc p c) ch.dunits ch.dtype.bytes,
          fun _ : ι => linkVptr) := by
      obtain ⟨hpos, -, hbytes⟩ := SinkChan.fits_iff hcopies |>.mp hfits
      exact Nmc12m.bounded_create _ _ hpos hbytes
    obtain ⟨role, plist, dtype, dunits⟩ := ch
    cases role
    case pipen | replicaten => exact hslots (P × ℕ) rfl
    case farm | farmn =>
      exact { hslots Unit rfl with rclen := by simp [internalFarmnQCreate, Farmn.queue]; omega }
    all_goals trivial

/-- The queue of a farm is inside its blocks when the view of it is. -/
theorem Sound.farmn {q q' : Farmn} (h : (Queue.farmn q : Queue P).Sound ch)
    (hsize : q'.size = q.size) (hq' : Nmc12m.Bounded q'.queue) :
    (Queue.farmn q' : Queue P).Sound ch :=
  ⟨⟨h.of.1, hsize.trans h.of.2⟩, hq'⟩

theorem Sound.put (h : queue.Sound ch) {i : ℕ} {bs : List Byte}
    (hput : queue.put i bs = some queue') : queue'.Sound ch := by
  refine ⟨h.of.put hput, ?_⟩
  obtain ⟨q, hq, -, rfl⟩ := h.of.put_eq_some hput
  cases queue with
  | mc121 r => cases i <;> trivial
  | mc12m qs => trivial
  | nmc12m s => simp [ring?] at hq
  | farmn r => simp [ring?] at hq

variable [DecidableEq P]

theorem Sound.fill (h : queue.Sound ch) {off : ℕ} {bs : List Byte}
    (hfill : queue.fill off bs = some queue') : queue'.Sound ch := by
  refine ⟨h.of.fill hfill, ?_⟩
  cases queue with
  | mc121 q => cases hfill
  | mc12m qs => cases hfill
  | nmc12m s =>
    obtain ⟨s', hs', rfl⟩ := Option.map_eq_some_iff.mp hfill
    exact Nmc12m.Bounded.fill h.bounded hs'
  | farmn q =>
    obtain ⟨q', hq', rfl⟩ := Option.map_eq_some_iff.mp hfill
    have hview := (farmn_views Unit 0).fill q off bs
    rw [show (farmnOps Unit).fill q off bs = some q' from hq'] at hview
    exact Nmc12m.Bounded.fill h.bounded hview.symm

theorem Sound.putEnter (h : queue.Sound ch) {count i : ℕ}
    (henter : queue.putEnter count = some (queue', i)) : queue'.Sound ch := by
  refine ⟨h.of.putEnter henter, ?_⟩
  cases queue with
  | mc121 q => cases henter
  | mc12m qs => cases henter
  | nmc12m s =>
    obtain ⟨⟨s', i'⟩, hs', hs⟩ := Option.map_eq_some_iff.mp henter
    obtain ⟨rfl, -⟩ := Prod.mk.inj hs
    exact Nmc12m.Bounded.putEnter h.bounded hs'
  | farmn q =>
    obtain ⟨⟨q', i'⟩, hq', hs⟩ := Option.map_eq_some_iff.mp henter
    obtain ⟨rfl, -⟩ := Prod.mk.inj hs
    have hview := (farmn_views Unit count).putEnter q
    rw [show (farmnOps Unit).putEnter q count = some (q', i') from hq'] at hview
    exact Nmc12m.Bounded.putEnter h.bounded hview.symm

theorem Sound.putCheck (h : queue.Sound ch)
    (hcheck : queue.putCheck queue.next = some (some queue')) : queue'.Sound ch := by
  refine ⟨h.of.putCheck hcheck, ?_⟩
  cases queue with
  | mc121 q => cases hcheck
  | mc12m qs => cases hcheck
  | nmc12m s =>
    obtain ⟨o, ho, hs⟩ := Option.map_eq_some_iff.mp hcheck
    obtain ⟨s', rfl, rfl⟩ := Option.map_eq_some_iff.mp hs
    exact Nmc12m.Bounded.putCheck h.bounded ho
  | farmn q =>
    obtain ⟨o, ho, hs⟩ := Option.map_eq_some_iff.mp hcheck
    obtain ⟨q', rfl, rfl⟩ := Option.map_eq_some_iff.mp hs
    have hview := (farmn_views Unit 0).putCheck q ((q.pptr.rcidx + 1) % q.du)
    rw [show (farmnOps Unit).putCheck q ((q.pptr.rcidx + 1) % q.du) = some (some q') from ho]
      at hview
    exact Nmc12m.Bounded.putCheck h.bounded hview.symm

/-- A send from a no-copy queue of `ch` that has a unit writes it. -/
theorem Sound.send_slots (h : queue.Sound ch) (hslots : queue.copies = false) (remote : P)
    (tag bytes : ℕ) (condRecv : Bool) :
    (∃ queue' u, queue'.Sound ch ∧ u.length = ch.dtype.bytes ∧
      queue.send remote tag bytes condRecv = some (.sent queue' (preamble condRecv ++ u))) ∨
    queue.send remote tag bytes condRecv =
      some (if condRecv then .refused (intBytes 0) else .wait) := by
  cases queue with
  | mc121 q => cases hslots
  | mc12m qs => cases hslots
  | nmc12m s =>
    have hsend := Nmc12m.Bounded.send_eq h.bounded (remote, tag) [] condRecv
    split at hsend
    case isTrue hready =>
      obtain ⟨s', u, hs', hsize, hu, heq⟩ := hsend
      have hof : (nmc12m s').Of ch := ⟨h.of.1, hsize.trans h.of.2⟩
      exact .inl ⟨nmc12m s', u, ⟨hof, hs'⟩, hu.trans h.of.2,
        by simp [Queue.send, heq, SendOutcome.map]⟩
    case isFalse hready =>
      exact .inr (by cases condRecv <;> simp [Queue.send, hsend, SendOutcome.map])
  | farmn q =>
    have hview := (farmn_views Unit 0).send q () [] condRecv
    have hsend := Nmc12m.Bounded.send_eq h.bounded () [] condRecv
    split at hsend
    case isTrue hready =>
      obtain ⟨s', u, hs', hsize, hu, heq⟩ := hsend
      rw [heq] at hview
      obtain ⟨o, ho, hview⟩ := Option.map_eq_some_iff.mp hview
      cases o with
      | sent q' fd =>
        obtain ⟨rfl, rfl⟩ := SendOutcome.sent.inj hview
        exact .inl ⟨.farmn q', u, h.farmn hsize hs', hu.trans h.of.2,
          congrArg (Option.map _) ho⟩
      | refused fd => cases hview
      | wait => cases hview
    case isFalse hready =>
      rw [hsend] at hview
      obtain ⟨o, ho, hview⟩ := Option.map_eq_some_iff.mp hview
      refine .inr ((congrArg (Option.map _) ho).trans ?_)
      cases condRecv <;> cases o <;> cases hview <;> rfl

theorem Sound.send (h : queue.Sound ch) {remote : P} {tag bytes : ℕ} {condRecv : Bool}
    {fd : List Byte} (hsend : queue.send remote tag bytes condRecv = some (.sent queue' fd)) :
    queue'.Sound ch := by
  cases hcopies : queue.copies with
  | false =>
    obtain ⟨queue'', u, hsound, -, heq⟩ | heq := h.send_slots hcopies remote tag bytes condRecv
    · rw [hsend] at heq
      exact (SendOutcome.sent.inj (Option.some.inj heq)).1 ▸ hsound
    · rw [hsend] at heq
      cases condRecv <;> cases heq
  | true =>
    refine ⟨h.of.send hsend, ?_⟩
    cases hq : queue.ring? (queue.node remote) with
    | none => cases queue <;> simp [Queue.send, hq, copies] at hsend hcopies
    | some q =>
      rw [h.of.send_eq hq] at hsend
      split at hsend
      case isTrue hlt => split at hsend <;> cases hsend
      case isFalse hlt =>
        obtain ⟨rfl, -⟩ := SendOutcome.sent.inj (Option.some.inj hsend)
        cases queue with
        | mc121 r => trivial
        | mc12m qs => trivial
        | nmc12m s => cases hcopies
        | farmn r => cases hcopies

/-- **No lock section spoils a queue.** -/
theorem Sound.run (h : queue.Sound ch) {op : QueueOp P} (hop : op.run queue = some queue') :
    queue'.Sound ch := by
  cases op with
  | put i bs => exact h.put hop
  | putEnter count =>
    obtain ⟨⟨queue'', i⟩, henter, rfl⟩ := Option.map_eq_some_iff.mp hop
    exact h.putEnter henter
  | putCheck =>
    obtain ⟨o, hcheck, rfl⟩ := Option.map_eq_some_iff.mp hop
    cases o with
    | none => exact h
    | some queue'' => exact h.putCheck hcheck
  | fill off bs => exact h.fill hop
  | send remote tag bytes condRecv =>
    simp only [QueueOp.run] at hop
    split at hop
    case h_1 queue'' fd hsend =>
      obtain rfl := Option.some.inj hop
      exact h.send hsend
    case h_2 => cases hop

end Queue

/-! ## Conditional sends -/

/-- What a reply to a request for `bytes` bytes carries: a no-copy queue sends one unit. -/
def SinkChan.replySize (ch : SinkChan P) (bytes : ℕ) : ℕ :=
  if ch.copies then bytes else ch.dtype.bytes

/-- **A send to a consumer of the channel** is refused, or it writes data. -/
theorem Queue.Sound.send_eq [DecidableEq P] {ch : SinkChan P} {queue : Queue P}
    (h : queue.Sound ch) (hrole : ch.role.c.isSome) {remote : P} (hmem : remote ∈ ch.plist)
    (tag bytes : ℕ) (condRecv : Bool) :
    (∃ queue' data, queue'.Sound ch ∧ data.length = ch.replySize bytes ∧
      queue.send remote tag bytes condRecv = some (.sent queue' (preamble condRecv ++ data))) ∨
    queue.send remote tag bytes condRecv =
      some (if condRecv then .refused (intBytes 0) else .wait) := by
  have hsize : ch.replySize bytes = if queue.copies then bytes else ch.dtype.bytes := by
    obtain ⟨x, hx⟩ := Option.isSome_iff_exists.mp hrole
    have hqtype := h.of.1 x hx
    rw [SinkChan.replySize, SinkChan.copies, hx, Option.any_some, ← hqtype]
    cases queue <;> rfl
  rw [hsize]
  cases hcopies : queue.copies with
  | false => exact h.send_slots hcopies remote tag bytes condRecv
  | true =>
    obtain ⟨q, hq⟩ := h.of.exists_ring hcopies hmem
    have hsend : queue.send remote tag bytes condRecv = _ := h.of.send_eq hq
    split at hsend
    case isTrue hlt => exact .inr hsend
    case isFalse hlt =>
      refine .inl ⟨_, _, h.send hsend, ?_, hsend⟩
      rw [if_pos rfl, List.length_take, (h.of.ring_wf hq).length_contents]
      omega

/-! ## The fifth queue

`__bc_internal_nmc121_send`, which no role leads to, tests before it waits too. -/

/-- `bc_nmc121_t`, without its lock and condition variable. -/
structure Nmc121 where
  mem : List Byte
  memEnd : ℕ
  size : ℕ
  du : ℕ
  /-- How many units it has, by its own count. -/
  inbuff : ℤ
  /-- The producer's `vptr.var`. -/
  var : ℕ

/-- `__bc_internal_nmc121_send` up to its return or its only wait. -/
def internalNmc121Send (q : Nmc121) (fd : List Byte) (var : ℕ) (condRecv : Bool) :
    Option (SendOutcome (Nmc121 × ℕ)) := do
  if q.inbuff = 0 ∨ var = q.var then
    if condRecv then
      return .refused (sendSorryMessage fd)
    else
      return .wait
  else
    let fd := if condRecv then sendPreambleMessage fd else fd
    let fd ← writeData fd q.mem var q.size
    return .sent ({ q with inbuff := q.inbuff - 1 }, advance var q.size q.memEnd) fd

/-- **A conditional send from it does not wait either.** -/
theorem internalNmc121Send_cond {q : Nmc121} {var : ℕ} (hin : var + q.size ≤ q.mem.length) :
    internalNmc121Send q [] var true = some (.refused (intBytes 0)) ∨
    ∃ q' u, u.length = q.size ∧
      internalNmc121Send q [] var true = some (.sent q' (intBytes 1 ++ u)) := by
  by_cases hready : q.inbuff = 0 ∨ var = q.var
  · exact .inl (by rw [internalNmc121Send, if_pos hready]; rfl)
  · refine .inr ⟨({ q with inbuff := q.inbuff - 1 }, advance var q.size q.memEnd),
      (q.mem.drop var).take q.size, ?_, ?_⟩
    · rw [List.length_take, List.length_drop]
      omega
    · simp only [internalNmc121Send, if_neg hready, if_true, writeData_eq hin]
      rfl

end Libdsys
