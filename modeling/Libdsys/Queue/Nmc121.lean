import Libdsys.Queue.Bounds

/-!
# Queue/Nmc121 — the no-copy one-to-one queue

`__bc_internal_nmc121_put` and `__bc_internal_nmc121_send` of `queue.c`, as lock sections.  A put
waits at its start, with the unit already written, and a send takes two equal pointers for an empty
buffer; neither looks again behind a wait.  The producer's pointer has come round to the oldest
unsent unit where the buffer is full, and so have all pointers where units have no bytes.

* `OneToOne.Inv` — where every unsent unit is, and that the count is theirs.
* `one_to_one_in_order` — which runs deliver the committed units in order.
-/

open Machinery

namespace Libdsys

/-- `__bc_internal_nmc121_create`: `raw` is what the new block happens to hold. -/
def internalNmc121Create (raw : ℕ → Byte) (du bytes : ℕ) : Nmc121 where
  mem := (List.range (sizeMul bytes du)).map raw
  memEnd := sizeMul bytes du
  size := bytes
  du := du
  inbuff := 0
  var := 0

/-- The producer stores `bs` through its variable pointer. -/
def nmc121Fill (q : Nmc121) (off : ℕ) (bs : List Byte) : Option Nmc121 :=
  if off + bs.length ≤ q.size then
    (writeAt q.mem (q.var + off) bs).map fun mem => { q with mem }
  else
    none

/-- `__bc_internal_nmc121_put` behind its wait. -/
def nmc121PutRest (q : Nmc121) : Nmc121 :=
  { q with inbuff := q.inbuff + 1, var := advance q.var q.size q.memEnd }

/-- `__bc_internal_nmc121_send` behind its wait, which no conditional one comes to. -/
def nmc121SendRest (q : Nmc121) (fd : List Byte) (var : ℕ) :
    Option ((Nmc121 × ℕ) × List Byte) :=
  (writeData fd q.mem var q.size).map fun fd =>
    (({ q with inbuff := q.inbuff - 1 }, advance var q.size q.memEnd), fd)

/-- A queue with its producer and its service thread, and what they have done so far. -/
structure OneToOne where
  q : Nmc121
  /-- The link's `vptr.var`. -/
  link : ℕ
  producer : Thread Unit
  service : Thread Unit
  /-- The units the producer committed. -/
  committed : List (List Byte)
  /-- The units the service thread sent, as their receiver reads them. -/
  sent : List (List Byte)
  /-- How many committed units were unsent, for each conditional send that was refused. -/
  refused : List ℕ

/-- A lock section of one of the threads. -/
inductive OneToOneAct
  /-- The producer writes into its slot. -/
  | fill (off : ℕ) (bs : List Byte)
  /-- A put up to its return or its wait. -/
  | put
  /-- A put that was woken goes on. -/
  | putOn
  /-- A send up to its return or its wait. -/
  | send (condRecv : Bool)
  /-- A send that was woken goes on. -/
  | sendOn
  /-- The put wakes up without a signal. -/
  | spuriousPut
  /-- The send wakes up without a signal. -/
  | spuriousSend
deriving DecidableEq

namespace OneToOne

/-- How many committed units are unsent. -/
def unsent (s : OneToOne) : ℕ := s.committed.length - s.sent.length

/-- A put commits the unit its pointer stands at, and signals. -/
def commits (s : OneToOne) : Option OneToOne :=
  (readAt s.q.mem s.q.var s.q.size).map fun u =>
    { s with
      q := nmc121PutRest s.q
      producer := .idle
      service := s.service.wake
      committed := s.committed ++ [u] }

/-- A send returns after writing a unit, and signals. -/
def sends (s : OneToOne) (condRecv : Bool) (q : Nmc121) (link : ℕ) (wrote : List Byte) :
    OneToOne :=
  { s with
    q
    link
    producer := s.producer.wake
    service := .idle
    sent := s.sent ++ (Reply.unit? ⟨(), condRecv, wrote⟩).toList }

/-- One lock section. -/
def step (s : OneToOne) : OneToOneAct → Option OneToOne
  | .fill off bs =>
    match s.producer with
    | .idle => (nmc121Fill s.q off bs).map fun q => { s with q }
    | _ => none
  | .put =>
    match s.producer with
    | .idle => if s.q.inbuff = s.q.du then some { s with producer := .asleep () } else s.commits
    | _ => none
  | .putOn =>
    match s.producer with
    | .woken () => s.commits
    | _ => none
  | .send condRecv =>
    match s.service with
    | .idle => (internalNmc121Send s.q [] s.link condRecv).map fun
      | .sent (q, link) wrote => s.sends condRecv q link wrote
      | .refused _ => { s with refused := s.refused ++ [s.unsent] }
      | .wait => { s with service := .asleep () }
    | _ => none
  | .sendOn =>
    match s.service with
    | .woken () => (nmc121SendRest s.q [] s.link).map fun ((q, link), wrote) =>
      s.sends false q link wrote
    | _ => none
  | .spuriousPut =>
    match s.producer with
    | .asleep () => some { s with producer := .woken () }
    | _ => none
  | .spuriousSend =>
    match s.service with
    | .asleep () => some { s with service := .woken () }
    | _ => none

/-- The state after a put. -/
def afterPut (s : OneToOne) (u : List Byte) : OneToOne :=
  { s with
    q := nmc121PutRest s.q
    producer := .idle
    service := s.service.wake
    committed := s.committed ++ [u] }

/-- The state after a send. -/
def afterSend (s : OneToOne) (u : List Byte) : OneToOne :=
  { s with
    q := { s.q with inbuff := s.q.inbuff - 1 }
    link := advance s.link s.q.size s.q.memEnd
    producer := s.producer.wake
    service := .idle
    sent := s.sent ++ [u] }

/-- **What a lock section can be**, and what is true before it. -/
inductive Moves (s : OneToOne) : OneToOneAct → OneToOne → Prop
  | fill {off bs} (hin : off + bs.length ≤ s.q.size)
    (hmem : s.q.var + off + bs.length ≤ s.q.mem.length) :
    Moves s (.fill off bs) { s with q := { s.q with mem := overlay s.q.mem (s.q.var + off) bs } }
  | full : Moves s .put { s with producer := .asleep () }
  | put {u} (hfull : s.q.inbuff ≠ s.q.du) (hu : readAt s.q.mem s.q.var s.q.size = some u) :
    Moves s .put (s.afterPut u)
  | putOn {u} (hu : readAt s.q.mem s.q.var s.q.size = some u) : Moves s .putOn (s.afterPut u)
  | refused (hempty : s.q.inbuff = 0 ∨ s.link = s.q.var) :
    Moves s (.send true) { s with refused := s.refused ++ [s.unsent] }
  | waits : Moves s (.send false) { s with service := .asleep () }
  | send {condRecv u} (hready : ¬(s.q.inbuff = 0 ∨ s.link = s.q.var))
    (hu : readAt s.q.mem s.link s.q.size = some u) : Moves s (.send condRecv) (s.afterSend u)
  | sendOn {u} (hu : readAt s.q.mem s.link s.q.size = some u) : Moves s .sendOn (s.afterSend u)
  | spuriousPut : Moves s .spuriousPut { s with producer := .woken () }
  | spuriousSend : Moves s .spuriousSend { s with service := .woken () }

variable {s s' : OneToOne} {a : OneToOneAct}

theorem afterSend_eq (s : OneToOne) (condRecv : Bool) (u : List Byte) :
    s.sends condRecv { s.q with inbuff := s.q.inbuff - 1 } (advance s.link s.q.size s.q.memEnd)
      (preamble condRecv ++ u) = s.afterSend u := by
  rw [sends, Reply.unit?_sent]
  rfl

theorem moves_of_fill {off : ℕ} {bs : List Byte} (hs : s.step (.fill off bs) = some s') :
    Moves s (.fill off bs) s' := by
  rw [step] at hs
  split at hs
  · obtain ⟨q, hq, rfl⟩ := Option.map_eq_some_iff.mp hs
    obtain ⟨hin, hq⟩ := Option.ite_none_right_eq_some.mp hq
    obtain ⟨mem, hmem, rfl⟩ := Option.map_eq_some_iff.mp hq
    obtain ⟨hlen, hmem⟩ := Option.ite_none_right_eq_some.mp hmem
    obtain rfl := Option.some.inj hmem
    exact .fill hin hlen
  · cases hs

theorem moves_of_send {condRecv : Bool} (hs : s.step (.send condRecv) = some s') :
    Moves s (.send condRecv) s' := by
  rw [step] at hs
  split at hs
  · obtain ⟨o, ho, rfl⟩ := Option.map_eq_some_iff.mp hs
    rw [internalNmc121Send, ite_sendPreambleMessage] at ho
    by_cases hready : s.q.inbuff = 0 ∨ s.link = s.q.var
    · rw [if_pos hready] at ho
      cases condRecv
      · obtain rfl := Option.some.inj ho
        exact .waits
      · obtain rfl := Option.some.inj ho
        exact .refused hready
    · rw [if_neg hready, Option.bind_eq_bind] at ho
      obtain ⟨w, hw, ho⟩ := Option.bind_eq_some_iff.mp ho
      obtain rfl := Option.some.inj ho
      obtain ⟨u, hu, rfl⟩ := Option.map_eq_some_iff.mp hw
      have hsend : Moves s (.send condRecv) (s.afterSend u) := .send hready hu
      rwa [← afterSend_eq s condRecv] at hsend
  · cases hs

theorem moves (hs : s.step a = some s') : Moves s a s' := by
  cases a with
  | fill off bs => exact moves_of_fill hs
  | put =>
    rw [step] at hs
    split at hs
    · split at hs
      · cases hs
        exact .full
      · next hfull =>
        obtain ⟨u, hu, rfl⟩ := Option.map_eq_some_iff.mp hs
        exact .put hfull hu
    · cases hs
  | putOn =>
    rw [step] at hs
    split at hs
    · obtain ⟨u, hu, rfl⟩ := Option.map_eq_some_iff.mp hs
      exact .putOn hu
    · cases hs
  | send condRecv => exact moves_of_send hs
  | sendOn =>
    rw [step] at hs
    split at hs
    · obtain ⟨x, hx, rfl⟩ := Option.map_eq_some_iff.mp hs
      obtain ⟨w, hw, rfl⟩ := Option.map_eq_some_iff.mp hx
      obtain ⟨u, hu, rfl⟩ := Option.map_eq_some_iff.mp hw
      have hsend := Moves.sendOn hu
      rw [← afterSend_eq s false u] at hsend
      exact hsend
    · cases hs
  | spuriousPut =>
    rw [step] at hs
    split at hs <;> cases hs
    exact .spuriousPut
  | spuriousSend =>
    rw [step] at hs
    split at hs <;> cases hs
    exact .spuriousSend

/-- A fresh queue, both threads between calls. -/
def start (raw : ℕ → Byte) (du size : ℕ) : OneToOne :=
  ⟨internalNmc121Create raw du size, 0, .idle, .idle, [], [], []⟩

/-- **Delivery in order**: the units sent are a prefix of the committed ones, the count is between 0
and `du`, and a conditional send was refused only where no committed unit was unsent. -/
structure InOrder (s : OneToOne) : Prop where
  sent : s.sent <+: s.committed
  nonneg : 0 ≤ s.q.inbuff
  le : s.q.inbuff ≤ s.q.du
  refused : ∀ n ∈ s.refused, n = 0

/-- **The producer writes only where the buffer is not full.** -/
def writesFree (s : OneToOne) : OneToOneAct → Bool
  | .fill _ _ => s.q.inbuff ≠ s.q.du
  | _ => true

/-- **The steps that are safe**: besides that, a put goes on behind its wait only where the buffer
is not full, a send only where it is not empty; and there is no conditional send while the buffer is
full, nor, while it is not empty, where units have no bytes. -/
def careful (s : OneToOne) : OneToOneAct → Bool
  | .putOn => s.q.inbuff ≠ s.q.du
  | .sendOn => s.q.inbuff ≠ 0
  | .send true => s.q.inbuff = 0 ∨ s.q.inbuff ≠ s.q.du ∧ s.q.size ≠ 0
  | a => s.writesFree a

/-- **The invariant**: the unsent units are in their slots, and are as many as the count says. -/
structure Inv (du size : ℕ) (s : OneToOne) : Prop where
  qdu : s.q.du = du
  qsize : s.q.size = size
  len : s.q.mem.length = du * size
  ends : s.q.memEnd = du * size
  var : s.q.var = s.committed.length % du * size
  link : s.link = s.sent.length % du * size
  sent : s.sent = s.committed.take s.sent.length
  count : s.q.inbuff = s.committed.length - s.sent.length
  le : s.sent.length ≤ s.committed.length
  room : s.committed.length ≤ s.sent.length + du
  slot : ∀ j, s.sent.length ≤ j → j < s.committed.length →
    s.committed[j]? = some ((s.q.mem.drop (j % du * size)).take size)
  refused : ∀ n ∈ s.refused, n = 0

namespace Inv

variable {du size : ℕ}

theorem start (raw : ℕ → Byte) (hfits : du * size < 2 ^ 64) : (start raw du size).Inv du size where
  qdu := rfl
  qsize := rfl
  len := by simp [OneToOne.start, internalNmc121Create, sizeMul_units hfits]
  ends := sizeMul_units hfits
  var := by simp [OneToOne.start, internalNmc121Create]
  link := by simp [OneToOne.start]
  sent := rfl
  count := rfl
  le := le_rfl
  room := Nat.zero_le _
  slot j _ hj := absurd hj (Nat.not_lt_zero j)
  refused n hn := absurd hn List.not_mem_nil

theorem inOrder (h : s.Inv du size) : s.InOrder := by
  have hcount := h.count
  have hle := h.le
  have hroom := h.room
  have hqdu := h.qdu
  exact ⟨h.sent ▸ List.take_prefix _ _, by omega, by omega, h.refused⟩

/-- The pointers are one where the buffer is empty, where it is full, and where units have no
bytes. -/
theorem link_eq_var_iff (h : s.Inv du size) :
    s.q.inbuff = 0 ∨ s.link = s.q.var ↔ s.q.inbuff = 0 ∨ s.q.inbuff = s.q.du ∨ s.q.size = 0 := by
  have hcount := h.count
  have hle := h.le
  have hroom := h.room
  refine or_congr_right' fun hne => ?_
  rw [h.link, h.var, h.qsize, h.qdu]
  rcases Nat.eq_zero_or_pos size with rfl | hsize
  · simp
  · rw [Nat.mul_left_inj hsize.ne', or_iff_left hsize.ne']
    constructor
    · intro heq
      by_contra hfull
      have hlt : s.sent.length < s.committed.length := by omega
      exact mod_ne_mod_of_lt hlt (by omega) heq
    · intro hfull
      have hround : s.committed.length = s.sent.length + du := by omega
      rw [hround, Nat.add_mod_right]

/-- The producer's slot is no unsent unit's, unless the buffer is full. -/
theorem fill (h : s.Inv du size) (hfull : s.q.inbuff ≠ s.q.du) {off : ℕ} {bs : List Byte}
    (hin : off + bs.length ≤ s.q.size) (hmem : s.q.var + off + bs.length ≤ s.q.mem.length) :
    Inv du size { s with q := { s.q with mem := overlay s.q.mem (s.q.var + off) bs } } := by
  have hcount := h.count
  have hroom := h.room
  have hqdu := h.qdu
  refine { h with len := (length_overlay hmem).trans h.len, slot := fun j hj hlt => ?_ }
  have hold : s.sent.length ≤ j := hj
  have hslot : j % du ≠ s.committed.length % du := mod_ne_mod_of_lt hlt (by omega)
  have hapart := slot_disjoint size hslot
  rw [h.qsize] at hin
  rw [h.slot j hj hlt, take_drop_overlay_of_disjoint hmem]
  rw [h.var]
  omega

/-- **A put commits the unit in the producer's slot**, unless the buffer is full. -/
theorem afterPut (h : s.Inv du size) (hdu : 1 ≤ du) (hfull : s.q.inbuff ≠ s.q.du) {u : List Byte}
    (hu : readAt s.q.mem s.q.var s.q.size = some u) : (s.afterPut u).Inv du size := by
  have hcount := h.count
  have hroom := h.room
  have hle := h.le
  have hqdu := h.qdu
  have hlen : (s.afterPut u).committed.length = s.committed.length + 1 := List.length_append
  obtain ⟨-, hu⟩ := Option.ite_none_right_eq_some.mp hu
  refine
    { h with
      var := ?_
      sent := ?_
      count := ?_
      le := hle.trans (hlen ▸ Nat.le_succ _)
      room := by rw [hlen]; change s.committed.length + 1 ≤ s.sent.length + du; omega
      slot := fun j hj hlt => ?_ }
  · rw [hlen]
    change advance s.q.var s.q.size s.q.memEnd = _
    rw [h.var, h.qsize, h.ends, advance_slot hdu]
  · exact h.sent.trans (List.take_append_of_le_length hle).symm
  · rw [hlen]
    change s.q.inbuff + 1 = _
    rw [hcount]
    change (s.committed.length : ℤ) - s.sent.length + 1 =
      (s.committed.length + 1 : ℕ) - s.sent.length
    omega
  · rw [hlen] at hlt
    rcases Nat.lt_succ_iff_lt_or_eq.mp hlt with hold | rfl
    · exact (List.getElem?_append_left hold).trans (h.slot j hj hold)
    · refine List.getElem?_concat_length.trans ?_
      rw [← Option.some.inj hu, h.var, h.qsize]
      rfl

/-- **A send takes the oldest unsent unit**, where there is one. -/
theorem afterSend (h : s.Inv du size) (hdu : 1 ≤ du) (hne : s.q.inbuff ≠ 0) {u : List Byte}
    (hu : readAt s.q.mem s.link s.q.size = some u) : (s.afterSend u).Inv du size := by
  have hcount := h.count
  have hroom := h.room
  have hle := h.le
  have hlt : s.sent.length < s.committed.length := by omega
  have hlen : (s.afterSend u).sent.length = s.sent.length + 1 := List.length_append
  obtain ⟨-, hu⟩ := Option.ite_none_right_eq_some.mp hu
  refine
    { h with
      link := ?_
      sent := ?_
      count := ?_
      le := by rw [hlen]; exact hlt
      room := by rw [hlen]; change s.committed.length ≤ s.sent.length + 1 + du; omega
      slot := fun j hj hjlt => h.slot j (Nat.le_of_succ_le (hlen.symm.trans_le hj)) hjlt }
  · rw [hlen]
    change advance s.link s.q.size s.q.memEnd = _
    rw [h.link, h.qsize, h.ends, advance_slot hdu]
  · have hunit := h.slot _ le_rfl hlt
    have htake : s.committed.take (s.sent.length + 1) = s.committed.take s.sent.length ++ [u] := by
      rw [List.take_add_one, hunit, ← Option.some.inj hu, h.link, h.qsize]
      rfl
    rw [hlen]
    change s.sent ++ [u] = s.committed.take (s.sent.length + 1)
    rw [htake, ← h.sent]
  · rw [hlen]
    change s.q.inbuff - 1 = s.committed.length - (s.sent.length + 1 : ℕ)
    omega

/-- A refusal where nothing is unsent. -/
theorem refuse (h : s.Inv du size) (hempty : s.q.inbuff = 0) :
    Inv du size { s with refused := s.refused ++ [s.unsent] } := by
  have hcount := h.count
  refine { h with refused := fun n hn => ?_ }
  rcases List.mem_append.mp hn with hold | hnew
  · exact h.refused n hold
  · rw [List.mem_singleton.mp hnew, unsent]
    omega

/-- **A safe step keeps the invariant…** -/
theorem step (h : s.Inv du size) (hdu : 1 ≤ du) (hok : s.careful a = true)
    (hs : s.step a = some s') : s'.Inv du size := by
  cases moves hs with
  | fill hin hmem => exact h.fill (of_decide_eq_true hok) hin hmem
  | full => exact { h with }
  | put hfull hu => exact h.afterPut hdu hfull hu
  | putOn hu => exact h.afterPut hdu (of_decide_eq_true hok) hu
  | refused hempty =>
    have hcond := of_decide_eq_true hok
    have heq := h.link_eq_var_iff.mp hempty
    exact h.refuse (by tauto)
  | waits => exact { h with }
  | send hready hu => exact h.afterSend hdu (fun h0 => hready (Or.inl h0)) hu
  | sendOn hu => exact h.afterSend hdu (of_decide_eq_true hok) hu
  | spuriousPut => exact { h with }
  | spuriousSend => exact { h with }

/-- **…and every other one breaks the order**, unless it is a write. -/
theorem step_careless (h : s.Inv du size) (hwrites : s.writesFree a = true)
    (hok : ¬s.careful a = true) (hs : s.step a = some s') : ¬s'.InOrder := by
  have hcount := h.count
  have hle := h.le
  intro horder
  cases moves hs with
  | fill _ _ => exact hok hwrites
  | full => exact hok rfl
  | put _ _ => exact hok rfl
  | putOn _ =>
    have hfull : s.q.inbuff = s.q.du := by simpa [careful] using hok
    have hle' : s.q.inbuff + 1 ≤ s.q.du := horder.le
    omega
  | refused hempty =>
    have hne : s.q.inbuff ≠ 0 := fun h0 => hok (by simp [careful, h0])
    have hzero := horder.refused s.unsent (by simp)
    rw [unsent] at hzero
    omega
  | waits => exact hok rfl
  | @send condRecv _ hready _ =>
    cases condRecv with
    | false => exact hok rfl
    | true =>
      rw [h.link_eq_var_iff] at hready
      exact hok (by simp only [careful]; exact decide_eq_true (by tauto))
  | sendOn _ =>
    have hempty : s.q.inbuff = 0 := by simpa [careful] using hok
    have hnonneg : 0 ≤ s.q.inbuff - 1 := horder.nonneg
    omega
  | spuriousPut => exact hok rfl
  | spuriousSend => exact hok rfl

end Inv

/-- A safe step writes only where the buffer is not full. -/
theorem writesFree_of_careful (s : OneToOne) (a : OneToOneAct) (h : s.careful a = true) :
    s.writesFree a = true := by
  cases a with
  | fill off bs => exact h
  | put | putOn | send _ | sendOn | spuriousPut | spuriousSend => rfl

end OneToOne

open OneToOne in
/-- **The no-copy one-to-one queue delivers in order**, where the size of the block is a `size_t`,
in every run of safe steps; and of the runs in which the producer writes only where the buffer is
not full, it does in no other. -/
theorem one_to_one_in_order (raw : ℕ → Byte) {du size : ℕ} (hdu : 1 ≤ du)
    (hfits : du * size < 2 ^ 64) :
    (∀ s, Reaches (restrict (fun s a => s.careful a = true) step) (start raw du size) s →
      s.InOrder) ∧
    ∀ as s, run (restrict (fun s a => s.writesFree a = true) step) (start raw du size) as = some s →
      (Along step InOrder (start raw du size) as ↔
        (run (restrict (fun s a => s.careful a = true) step) (start raw du size) as).isSome) := by
  constructor
  · intro s hs
    refine Inv.inOrder (hs.invariant (fun u a v hu ha => ?_) (Inv.start raw hfits))
    obtain ⟨hok, ha⟩ := restrict_eq_some.mp ha
    exact hu.step hdu hok ha
  · intro as s hs
    rw [← along_restrict hs, ← restrict_restrict writesFree_of_careful]
    refine along_iff (fun _ h => h.inOrder) (fun u a v hu hok ha => ?_) (fun u a v hu hok ha => ?_)
      (Inv.start raw hfits) hs
    · exact hu.step hdu hok (restrict_eq_some.mp ha).2
    · obtain ⟨hwrites, ha⟩ := restrict_eq_some.mp ha
      exact hu.step_careless hwrites hok ha

open OneToOne in
/-- Two slots: the send waits for the first unit, and finds the second one. -/
theorem one_to_one_in_order_two : ∃ s,
    run (restrict (fun s a => s.careful a = true) step) (start (fun _ => 0) 2 1)
      [.send false, .fill 0 [5], .put, .sendOn, .fill 0 [6], .put, .send true] = some s ∧
    s.sent = [[5], [6]] ∧ s.InOrder := by
  have hrun : run (restrict (fun s a => s.careful a = true) step) (start (fun _ => 0) 2 1)
      [.send false, .fill 0 [5], .put, .sendOn, .fill 0 [6], .put, .send true] = some _ := rfl
  exact ⟨_, hrun, rfl, (one_to_one_in_order (fun _ => 0) (by decide) (by decide)).1 _ ⟨_, hrun⟩⟩

open OneToOne in
/-- **What each of the other steps does.**  With one slot, a conditional send is refused though a
unit is unsent.  A send that wakes up without a signal sends what the empty buffer holds, and a put
that does fills the buffer beyond its slots.  And with two slots a send that was woken for the first
unit finds the third one in its slot, which the producer has written before the second put could
wait. -/
theorem one_to_one_out_of_order :
    (∃ s, run step (start (fun _ => 0) 1 1) [.fill 0 [5], .put, .send true] = some s ∧
      s.committed = [[5]] ∧ s.sent = [] ∧ s.refused = [1] ∧ ¬s.InOrder) ∧
    (∃ s, run step (start (fun _ => 0) 1 1) [.send false, .spuriousSend, .sendOn] = some s ∧
      s.committed = [] ∧ s.sent = [[0]] ∧ s.q.inbuff = -1 ∧ ¬s.InOrder) ∧
    (∃ s, run step (start (fun _ => 0) 1 1) [.put, .put, .spuriousPut, .putOn] = some s ∧
      s.q.inbuff = 2 ∧ s.q.du = 1 ∧ ¬s.InOrder) ∧
    ∃ s, run step (start (fun _ => 0) 2 1)
        [.send false, .fill 0 [5], .put, .fill 0 [6], .put, .fill 0 [7], .sendOn] = some s ∧
      s.committed = [[5], [6]] ∧ s.sent = [[7]] ∧ ¬s.InOrder := by
  refine ⟨⟨_, rfl, rfl, rfl, rfl, fun h => ?_⟩, ⟨_, rfl, rfl, rfl, rfl, fun h => ?_⟩,
    ⟨_, rfl, rfl, rfl, fun h => ?_⟩, ⟨_, rfl, rfl, rfl, fun h => ?_⟩⟩
  · exact absurd (h.refused 1 List.mem_cons_self) (by decide)
  · exact absurd h.nonneg (by decide)
  · exact absurd h.le (by decide)
  · exact absurd (List.singleton_prefix_cons_iff.mp h.sent) (by decide)

end Libdsys
