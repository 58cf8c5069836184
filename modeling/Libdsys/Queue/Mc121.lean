import Mathlib.Algebra.Group.Int.Defs
import Mathlib.Algebra.Group.Nat.Defs
import Libdsys.Machinery.Fifo
import Libdsys.Machinery.Ring
import Libdsys.Machinery.Runs

/-!
# Queue/Mc121 — the memory-copy ring buffer is a bounded byte FIFO

`putqMc121` and `sendqMc121` are `__bc_putq_mc121` and `__bc_sendq_mc121` of `queue.c`: pointers are
offsets from `buff_start`, and `none` is an access outside a block or a `size_t` difference that
underflows.  `Mc121.Wf` ties the two pointers, the count and the block together, and on it

* `putqMc121_eq` / `sendqMc121_eq` — a call is its guard and one circular move, never a fault.
* `mc121_refines_fifo` — so every run from `mc121Create` is a run of `Machinery.Fifo`.

The pointers are equal both when the buffer is empty and when it is full; `Wf` derives `freeStart`
from `dataStart` and the count, never the other way round.
-/

open Machinery

namespace Libdsys

/-- An octet of a buffer or of a socket's stream. -/
abbrev Byte := UInt8

/-! ## The queue -/

/-- `bc_mc121_t`, without its lock and condition variable. -/
structure Mc121 where
  /-- Data bytes in the buffer. -/
  bytesInbuff : ℕ
  /-- Size of the queue, in bytes. -/
  size : ℕ
  /-- Where free memory starts. -/
  freeStart : ℕ
  /-- Where data starts. -/
  dataStart : ℕ
  /-- The block at `buff_start`. -/
  buff : List Byte
  /-- End of the block. -/
  buffEnd : ℕ
deriving Repr, DecidableEq

/-- `__bc_mc121_create`, both allocations granted: `raw` is what the new block happens to hold. -/
def mc121Create (raw : ℕ → Byte) (bytes : ℕ) : Mc121 where
  bytesInbuff := 0
  size := bytes
  freeStart := 0
  dataStart := 0
  buff := (List.range bytes).map raw
  buffEnd := 0 + bytes

/-- A difference of `size_t`s — `none` when it would underflow. -/
def sizeSub (a b : ℕ) : Option ℕ := if b ≤ a then some (a - b) else none

/-- A product of `size_t`s. -/
def sizeMul (a b : ℕ) : ℕ := a * b % 2 ^ 64

theorem sizeMul_of_lt {a b : ℕ} (h : a * b < 2 ^ 64) : sizeMul a b = a * b := Nat.mod_eq_of_lt h

/-- `n` units of `b` bytes. -/
theorem sizeMul_units {b n : ℕ} (h : n * b < 2 ^ 64) : sizeMul b n = n * b := by
  rw [sizeMul_of_lt (Nat.mul_comm n b ▸ h), Nat.mul_comm]

/-- `memcpy` of `n` bytes of `src` from `soff` on to `dst` from `doff` on. -/
def memcpy (dst : List Byte) (doff : ℕ) (src : List Byte) (soff n : ℕ) : Option (List Byte) :=
  (readAt src soff n).bind (writeAt dst doff)

/-- `__bc_write_data`: `n` bytes of a block, appended to a socket's stream. -/
def writeData (fd block : List Byte) (off n : ℕ) : Option (List Byte) :=
  (readAt block off n).map (fd ++ ·)

/-- The bytes of an `int`, least significant first. -/
def intBytes (x : ℕ) : List Byte :=
  [x.toUInt8, (x / 2 ^ 8).toUInt8, (x / 2 ^ 16).toUInt8, (x / 2 ^ 24).toUInt8]

/-- `__bc_send_sorry_message`. -/
def sendSorryMessage (fd : List Byte) : List Byte := fd ++ intBytes 0

/-- `__bc_send_preamble_message`. -/
def sendPreambleMessage (fd : List Byte) : List Byte := fd ++ intBytes 1

/-- `__bc_putq_mc121`.  Its `bc_cond_signal` goes with the result `0`. -/
def putqMc121 (q : Mc121) (loc : List Byte) (bytes : ℕ) : Option (ℤ × Mc121) := do
  let free ← sizeSub q.size q.bytesInbuff
  if free < bytes then
    return (-1, q)
  else
    let upperFree ← sizeSub q.buffEnd q.freeStart
    if upperFree > bytes then
      let buff ← memcpy q.buff q.freeStart loc 0 bytes
      return (0, { q with buff, freeStart := q.freeStart + bytes,
                          bytesInbuff := q.bytesInbuff + bytes })
    else
      let buff ← memcpy q.buff q.freeStart loc 0 upperFree
      let bytesRemaining ← sizeSub bytes upperFree
      if bytesRemaining > 0 then
        let buff ← memcpy buff 0 loc upperFree bytesRemaining
        return (0, { q with buff, freeStart := 0 + bytesRemaining,
                            bytesInbuff := q.bytesInbuff + bytes })
      else
        return (0, { q with buff, freeStart := 0, bytesInbuff := q.bytesInbuff + bytes })

/-- `__bc_sendq_mc121`: the socket's stream is part of the state.  Its `bc_cond_signal` goes with
the result `0`. -/
def sendqMc121 (q : Mc121) (fd : List Byte) (bytes : ℕ) (condRecv : Bool) :
    Option (ℤ × Mc121 × List Byte) := do
  if q.bytesInbuff < bytes then
    return (-1, q, fd)
  else
    let upperData ← sizeSub q.buffEnd q.dataStart
    if upperData > bytes then
      let fd := if condRecv then sendPreambleMessage fd else fd
      let fd ← writeData fd q.buff q.dataStart bytes
      let bytesInbuff ← sizeSub q.bytesInbuff bytes
      return (0, { q with dataStart := q.dataStart + bytes, bytesInbuff }, fd)
    else
      let fd := if condRecv then sendPreambleMessage fd else fd
      let fd ← writeData fd q.buff q.dataStart upperData
      let bytesRemaining ← sizeSub bytes upperData
      let bytesInbuff ← sizeSub q.bytesInbuff bytes
      if bytesRemaining > 0 then
        let fd ← writeData fd q.buff 0 bytesRemaining
        return (0, { q with dataStart := 0 + bytesRemaining, bytesInbuff }, fd)
      else
        return (0, { q with dataStart := 0, bytesInbuff }, fd)

/-! ## The representation -/

namespace Mc121

/-- **The representation invariant.**  An empty block has no place for a pointer but its start,
hence `size - 1`. -/
structure Wf (q : Mc121) : Prop where
  len : q.buff.length = q.size
  ends : q.buffEnd = q.size
  data : q.dataStart ≤ q.size - 1
  inbuff : q.bytesInbuff ≤ q.size
  free : q.freeStart = (q.dataStart + q.bytesInbuff) % q.size

/-- **The bytes stored, oldest first.** -/
def contents (q : Mc121) : List Byte := window q.buff q.dataStart q.bytesInbuff

variable {q : Mc121}

theorem Wf.length_contents (h : q.Wf) : q.contents.length = q.bytesInbuff :=
  length_window _ (by rw [h.len]; exact h.inbuff)

theorem Wf.freeStart_le (h : q.Wf) : q.freeStart ≤ q.size - 1 := by
  have := h.data
  have := h.inbuff
  have := h.free
  rcases Nat.eq_zero_or_pos q.size with h0 | hpos
  · rw [h0, Nat.mod_zero] at this
    omega
  · have := Nat.mod_lt (q.dataStart + q.bytesInbuff) hpos
    omega

theorem wf_mc121Create (raw : ℕ → Byte) (S : ℕ) : (mc121Create raw S).Wf where
  len := by simp [mc121Create]
  ends := Nat.zero_add S
  data := Nat.zero_le _
  inbuff := Nat.zero_le _
  free := (Nat.zero_mod S).symm

@[simp] theorem contents_mc121Create (raw : ℕ → Byte) (S : ℕ) :
    (mc121Create raw S).contents = [] := window_zero _ _

/-- The queue after a granted put. -/
def pushed (q : Mc121) (bs : List Byte) : Mc121 :=
  { q with
    buff := ringWrite q.buff q.freeStart bs
    freeStart := (q.freeStart + bs.length) % q.size
    bytesInbuff := q.bytesInbuff + bs.length }

/-- The queue after a granted send. -/
def popped (q : Mc121) (n : ℕ) : Mc121 :=
  { q with
    dataStart := (q.dataStart + n) % q.size
    bytesInbuff := q.bytesInbuff - n }

@[simp] theorem pushed_size (q : Mc121) (bs : List Byte) : (q.pushed bs).size = q.size := rfl

@[simp] theorem popped_size (q : Mc121) (n : ℕ) : (q.popped n).size = q.size := rfl

theorem Wf.pushed (h : q.Wf) {bs : List Byte} (hfit : q.bytesInbuff + bs.length ≤ q.size) :
    (q.pushed bs).Wf where
  len := by
    have := h.freeStart_le
    have := h.len
    exact (length_ringWrite (by omega) (by omega)).trans h.len
  ends := h.ends
  data := h.data
  inbuff := hfit
  free := by
    change (q.freeStart + bs.length) % q.size = _
    rw [h.free, Nat.mod_add_mod, Nat.add_assoc]
    rfl

/-- **A granted put appends.** -/
theorem Wf.contents_pushed (h : q.Wf) {bs : List Byte}
    (hfit : q.bytesInbuff + bs.length ≤ q.size) :
    (q.pushed bs).contents = q.contents ++ bs := by
  rcases Nat.eq_zero_or_pos q.size with h0 | hpos
  · obtain rfl : bs = [] := List.length_eq_zero_iff.mp (by omega)
    have hb : q.buff = [] := List.length_eq_zero_iff.mp (h.len.trans h0)
    simp [contents, window, Mc121.pushed, hb, ringWrite, overlay]
  · have hcap : q.bytesInbuff + bs.length ≤ q.buff.length := by rw [h.len]; exact hfit
    have key := window_ringWrite (d := q.dataStart) hcap (by rw [h.len]; exact hpos)
    rw [h.len, ← h.free] at key
    exact key

theorem Wf.popped (h : q.Wf) {n : ℕ} (hn : n ≤ q.bytesInbuff) : (q.popped n).Wf where
  len := h.len
  ends := h.ends
  data := by
    change (q.dataStart + n) % q.size ≤ q.size - 1
    have := h.data
    have := h.inbuff
    rcases Nat.eq_zero_or_pos q.size with h0 | hpos
    · rw [h0, Nat.mod_zero]
      omega
    · have := Nat.mod_lt (q.dataStart + n) hpos
      omega
  inbuff := (Nat.sub_le _ _).trans h.inbuff
  free := by
    change q.freeStart = ((q.dataStart + n) % q.size + (q.bytesInbuff - n)) % q.size
    rw [Nat.mod_add_mod, show q.dataStart + n + (q.bytesInbuff - n)
      = q.dataStart + q.bytesInbuff by omega, h.free]

/-- **A granted send cuts the stored bytes after the first `n`.** -/
theorem Wf.contents_eq (h : q.Wf) {n : ℕ} (hn : n ≤ q.bytesInbuff) :
    q.contents = window q.buff q.dataStart n ++ (q.popped n).contents := by
  have key := window_add q.buff q.dataStart n (q.bytesInbuff - n)
    (by rw [h.len]; have := h.inbuff; omega)
  rw [Nat.add_sub_cancel' hn, h.len] at key
  exact key

theorem Wf.take_contents (h : q.Wf) {n : ℕ} (hn : n ≤ q.bytesInbuff) :
    q.contents.take n = window q.buff q.dataStart n := by
  have hl : (window q.buff q.dataStart n).length = n :=
    length_window _ (by rw [h.len]; exact hn.trans h.inbuff)
  rw [h.contents_eq hn, List.take_append_of_le_length (by omega), List.take_of_length_le (by omega)]

theorem Wf.contents_popped (h : q.Wf) {n : ℕ} (hn : n ≤ q.bytesInbuff) :
    (q.popped n).contents = q.contents.drop n := by
  have hl : (window q.buff q.dataStart n).length = n :=
    length_window _ (by rw [h.len]; exact hn.trans h.inbuff)
  rw [h.contents_eq hn, List.drop_append, hl, Nat.sub_self, List.drop_zero,
    List.drop_of_length_le (by omega), List.nil_append]

end Mc121

/-! ## What a call does -/

theorem sizeSub_of_le {a b : ℕ} (h : b ≤ a) : sizeSub a b = some (a - b) := if_pos h

theorem memcpy_eq {dst src : List Byte} {doff soff n : ℕ} (hs : soff + n ≤ src.length)
    (hd : doff + n ≤ dst.length) :
    memcpy dst doff src soff n = some (overlay dst doff ((src.drop soff).take n)) := by
  have hl : ((src.drop soff).take n).length = n := by
    rw [List.length_take, List.length_drop]
    omega
  rw [memcpy, readAt_eq_some hs, Option.bind_some, writeAt_eq_some (by omega)]

theorem writeData_eq {fd block : List Byte} {off n : ℕ} (h : off + n ≤ block.length) :
    writeData fd block off n = some (fd ++ (block.drop off).take n) := by
  rw [writeData, readAt_eq_some h, Option.map_some]

/-- **A put is its guard and one circular write.**  Every copy is inside the block and no difference
underflows, at any fill level and any wrap position. -/
theorem putqMc121_eq {q : Mc121} (h : q.Wf) (bs : List Byte) :
    putqMc121 q bs bs.length =
      some (if q.size - q.bytesInbuff < bs.length then (-1, q) else (0, q.pushed bs)) := by
  have hin := h.inbuff
  have hfs := h.freeStart_le
  have hlen := h.len
  simp only [putqMc121, Option.bind_eq_bind]
  rw [sizeSub_of_le hin, Option.bind_some]
  split
  · rfl
  rename_i hroom
  have hupperFree : sizeSub q.buffEnd q.freeStart = some (q.size - q.freeStart) := by
    rw [h.ends, sizeSub_of_le (by omega)]
  rw [hupperFree, Option.bind_some]
  split
  case isTrue hupper =>
    have hw : ringWrite q.buff q.freeStart bs = overlay q.buff q.freeStart bs :=
      if_pos (by omega)
    rw [memcpy_eq (by omega) (by omega), List.drop_zero, List.take_length, Option.bind_some,
      Mc121.pushed, hw, Nat.mod_eq_of_lt (by omega)]
    rfl
  case isFalse hupper =>
    have htake : (bs.take (q.size - q.freeStart)).length = q.size - q.freeStart :=
      List.length_take_of_le (by omega)
    have hov : (overlay q.buff q.freeStart (bs.take (q.size - q.freeStart))).length = q.size := by
      rw [length_overlay (by omega), hlen]
    rw [memcpy_eq (by omega) (by omega), List.drop_zero, Option.bind_some,
      sizeSub_of_le (by omega), Option.bind_some]
    split
    case isTrue hrem =>
      have hdrop : (bs.drop (q.size - q.freeStart)).take (bs.length - (q.size - q.freeStart))
          = bs.drop (q.size - q.freeStart) := List.take_of_length_le (by rw [List.length_drop])
      have hw : ringWrite q.buff q.freeStart bs = overlay
          (overlay q.buff q.freeStart (bs.take (q.size - q.freeStart))) 0
          (bs.drop (q.size - q.freeStart)) := by
        rw [ringWrite, if_neg (by omega), hlen]
      have hfree : (q.freeStart + bs.length) % q.size = bs.length - (q.size - q.freeStart) := by
        rw [show q.freeStart + bs.length = bs.length - (q.size - q.freeStart) + q.size by omega,
          Nat.add_mod_right, Nat.mod_eq_of_lt (by omega)]
      rw [memcpy_eq (by omega) (by omega), hdrop, Option.bind_some,
        Mc121.pushed, hw, hfree, Nat.zero_add]
      rfl
    case isFalse hrem =>
      have hall : bs.take (q.size - q.freeStart) = bs := List.take_of_length_le (by omega)
      have hw : ringWrite q.buff q.freeStart bs = overlay q.buff q.freeStart bs :=
        if_pos (by omega)
      have hfree : (q.freeStart + bs.length) % q.size = 0 := by
        rw [show q.freeStart + bs.length = q.size by omega, Nat.mod_self]
      rw [hall, Mc121.pushed, hw, hfree]
      rfl

/-- The bytes ahead of a reply's data: the flag of a conditional receive. -/
def preamble (condRecv : Bool) : List Byte := if condRecv then intBytes 1 else []

theorem ite_sendPreambleMessage (fd : List Byte) (condRecv : Bool) :
    (if condRecv then sendPreambleMessage fd else fd) = fd ++ preamble condRecv := by
  cases condRecv
  · exact (List.append_nil fd).symm
  · rfl

/-- **A send is its guard and one circular read**, written to the socket behind the flag. -/
theorem sendqMc121_eq {q : Mc121} (h : q.Wf) (fd : List Byte) (n : ℕ) (condRecv : Bool) :
    sendqMc121 q fd n condRecv = some (if q.bytesInbuff < n then (-1, q, fd)
      else (0, q.popped n, fd ++ preamble condRecv ++ q.contents.take n)) := by
  have hin := h.inbuff
  have hds := h.data
  have hlen := h.len
  simp only [sendqMc121, Option.bind_eq_bind, ite_sendPreambleMessage]
  split
  · rfl
  rename_i hdata
  have hupperData : sizeSub q.buffEnd q.dataStart = some (q.size - q.dataStart) := by
    rw [h.ends, sizeSub_of_le (by omega)]
  rw [h.take_contents (not_lt.mp hdata), hupperData, Option.bind_some]
  split
  case isTrue hupper =>
    rw [writeData_eq (by omega), Option.bind_some,
      sizeSub_of_le (by omega), Option.bind_some,
      window_eq_slice (by omega), Mc121.popped, Nat.mod_eq_of_lt (by omega)]
    rfl
  case isFalse hupper =>
    rw [writeData_eq (by omega), Option.bind_some,
      sizeSub_of_le (by omega), Option.bind_some,
      sizeSub_of_le (by omega), Option.bind_some,
      window_eq_slices (by omega) (by omega) (by omega), hlen]
    split
    case isTrue hrem =>
      have hstart : (q.dataStart + n) % q.size = n - (q.size - q.dataStart) := by
        rw [show q.dataStart + n = n - (q.size - q.dataStart) + q.size by omega,
          Nat.add_mod_right, Nat.mod_eq_of_lt (by omega)]
      rw [writeData_eq (by omega), Option.bind_some, Mc121.popped, hstart,
        Nat.zero_add, List.append_assoc]
      rfl
    case isFalse hrem =>
      have hzero : n - (q.size - q.dataStart) = 0 := by omega
      have hstart : (q.dataStart + n) % q.size = 0 := by
        rw [show q.dataStart + n = q.size by omega, Nat.mod_self]
      rw [hzero, List.take_zero, List.append_nil, Mc121.popped, hstart]
      rfl

/-! ## Runs of calls

The abstract side is `Machinery.Fifo` with the same calls and the same results: all that is left of
the pointers is the bound. -/

/-- One call on the queue. -/
inductive Mc121Call
  /-- `__bc_putq_mc121` of a whole local buffer. -/
  | put (loc : List Byte)
  /-- `__bc_sendq_mc121`. -/
  | send (bytes : ℕ) (condRecv : Bool)

/-- A queue, the socket it is sent to, and the results of the calls so far. -/
structure Mc121State where
  q : Mc121
  fd : List Byte
  rets : List ℤ

/-- One call, as the code makes it. -/
def mc121Step (s : Mc121State) : Mc121Call → Option Mc121State
  | .put loc => (putqMc121 s.q loc loc.length).map fun (r, q) => ⟨q, s.fd, s.rets ++ [r]⟩
  | .send bytes condRecv => (sendqMc121 s.q s.fd bytes condRecv).map fun (r, q, fd) =>
      ⟨q, fd, s.rets ++ [r]⟩

/-- The same on a bounded FIFO. -/
structure FifoState (S : ℕ) where
  fifo : Fifo Byte S
  fd : List Byte
  rets : List ℤ

/-- **What a call is for**: a put that fits appends and returns 0; a send of what is there writes
the oldest bytes behind the flag and returns 0; any other call returns -1 and does nothing. -/
def fifoStep {S : ℕ} (s : FifoState S) : Mc121Call → FifoState S
  | .put loc =>
    match s.fifo.put? loc with
    | some f => ⟨f, s.fd, s.rets ++ [0]⟩
    | none => { s with rets := s.rets ++ [-1] }
  | .send bytes condRecv =>
    match s.fifo.take? bytes with
    | some (oldest, f) => ⟨f, s.fd ++ preamble condRecv ++ oldest, s.rets ++ [0]⟩
    | none => { s with rets := s.rets ++ [-1] }

/-- The code's state represents a FIFO's. -/
structure Mc121State.Represents {S : ℕ} (s : Mc121State) (f : FifoState S) : Prop where
  wf : s.q.Wf
  size : s.q.size = S
  contents : s.q.contents = f.fifo.items
  fd : s.fd = f.fd
  rets : s.rets = f.rets

/-- **A call keeps the representation**, and is never a fault. -/
theorem Mc121State.Represents.step {S : ℕ} {s : Mc121State} {f : FifoState S}
    (h : s.Represents f) (c : Mc121Call) :
    ∃ s', mc121Step s c = some s' ∧ s'.Represents (fifoStep f c) := by
  have hlen : f.fifo.items.length = s.q.bytesInbuff := by
    rw [← h.contents, h.wf.length_contents]
  have hin := h.wf.inbuff
  have hsize := h.size
  cases c with
  | put loc =>
    rw [mc121Step, putqMc121_eq h.wf, Option.map_some, fifoStep]
    refine ⟨_, rfl, ?_⟩
    by_cases hroom : f.fifo.items.length + loc.length ≤ S
    · rw [if_neg (by omega), Fifo.put?, dif_pos hroom]
      refine ⟨h.wf.pushed (by omega), h.size, ?_, h.fd, congrArg (· ++ [0]) h.rets⟩
      exact (h.wf.contents_pushed (by omega)).trans (congrArg (· ++ loc) h.contents)
    · rw [if_pos (by omega), Fifo.put?, dif_neg hroom]
      exact ⟨h.wf, h.size, h.contents, h.fd, congrArg (· ++ [-1]) h.rets⟩
  | send bytes condRecv =>
    rw [mc121Step, sendqMc121_eq h.wf, Option.map_some, fifoStep]
    refine ⟨_, rfl, ?_⟩
    by_cases hdata : bytes ≤ f.fifo.items.length
    · rw [if_neg (by omega), Fifo.take?, if_pos hdata]
      refine ⟨h.wf.popped (by omega), h.size, ?_, ?_, congrArg (· ++ [0]) h.rets⟩
      · exact (h.wf.contents_popped (by omega)).trans (congrArg (List.drop bytes) h.contents)
      · change s.fd ++ _ ++ _ = _
        rw [h.fd, h.contents]
    · rw [if_pos (by omega), Fifo.take?, if_neg hdata]
      exact ⟨h.wf, h.size, h.contents, h.fd, congrArg (· ++ [-1]) h.rets⟩

theorem Mc121State.Represents.run {S : ℕ} (calls : List Mc121Call) {s : Mc121State}
    {f : FifoState S} (h : s.Represents f) :
    ∃ s', Machinery.run mc121Step s calls = some s' ∧
      s'.Represents (calls.foldl fifoStep f) := by
  induction calls generalizing s f with
  | nil => exact ⟨s, rfl, h⟩
  | cons c calls ih =>
    obtain ⟨t, ht, hrep⟩ := h.step c
    obtain ⟨u, hu, hrep'⟩ := ih hrep
    exact ⟨u, by rw [run_cons, ht]; exact hu, hrep'⟩

/-- The freshly created queue represents the empty FIFO. -/
theorem represents_mc121Create (raw : ℕ → Byte) (S : ℕ) :
    (⟨mc121Create raw S, [], []⟩ : Mc121State).Represents
      (⟨Fifo.empty Byte S, [], []⟩ : FifoState S) :=
  ⟨Mc121.wf_mc121Create raw S, rfl, Mc121.contents_mc121Create raw S, rfl, rfl⟩

/-- **The ring buffer refines a bounded byte FIFO.**  No run of calls faults — every copy and write
is inside the block, no `size_t` difference underflows — and its results, the socket's stream and
the bytes stored are those of the FIFO.  A refused call changes nothing. -/
theorem mc121_refines_fifo (raw : ℕ → Byte) (S : ℕ) (calls : List Mc121Call) :
    ∃ s, Machinery.run mc121Step ⟨mc121Create raw S, [], []⟩ calls = some s ∧
      s.Represents (calls.foldl fifoStep ⟨Fifo.empty Byte S, [], []⟩) ∧
      s.q.contents.length = s.q.bytesInbuff ∧ s.q.bytesInbuff ≤ s.q.size ∧
      (∀ loc : List Byte, putqMc121 s.q loc loc.length =
        if loc.length ≤ S - s.q.bytesInbuff then some (0, s.q.pushed loc) else some (-1, s.q)) ∧
      (∀ bytes condRecv, sendqMc121 s.q s.fd bytes condRecv =
        if bytes ≤ s.q.bytesInbuff then
          some (0, s.q.popped bytes, s.fd ++ preamble condRecv ++ s.q.contents.take bytes)
        else some (-1, s.q, s.fd)) := by
  obtain ⟨s, hs, hrep⟩ := (represents_mc121Create raw S).run calls
  have hsize := hrep.size
  refine ⟨s, hs, hrep, hrep.wf.length_contents, hrep.wf.inbuff, fun loc => ?_,
    fun bytes condRecv => ?_⟩
  · rw [putqMc121_eq hrep.wf, ← hsize]
    split_ifs <;> first | rfl | omega
  · rw [sendqMc121_eq hrep.wf]
    split_ifs <;> first | rfl | omega

end Libdsys
