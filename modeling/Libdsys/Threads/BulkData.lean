import Libdsys.Machinery.Runs
import Libdsys.Threads.Fdutils

/-!
# Threads/BulkData — messages on one byte stream

A writer and a reader go through the same messages, each with the loops of `fdutils.c`.  What a
`send` takes and what a `recv` gives is a piece of what remains, and the two sides cut the messages
as they like; a `recv` has no more than the stream holds.

* `Bulk.Inv` — what is ahead of the reader is the rest of its message, and the messages behind.
* `bulk_data_survives` — every read returns its message, and both loops end.
-/

open Machinery Transfer

namespace Libdsys

variable {d : DataModel}

/-- A message: where it is written from, where it is read to, and its length. -/
structure Message (d : DataModel) where
  source : Memory Byte
  target : Memory Byte
  bytes : ℕ
  bytes_pos : 0 < bytes
  bytes_lt : bytes < 2 ^ (8 * d.word)

namespace Message

/-- The bytes of the message. -/
def content (m : Message d) : List Byte := m.source.read 0 m.bytes

/-- The reader's memory with the first `k` bytes in it. -/
def readTo (m : Message d) (k : ℕ) : Memory Byte := m.target.write 0 (m.content.take k)

/-- The call that writes it. -/
def write (m : Message d) : Memory Byte × Transfer := (m.source, ⟨0, m.bytes⟩)

/-- The call that reads it. -/
def read (m : Message d) : Memory Byte × Transfer := (m.target, ⟨0, m.bytes⟩)

end Message

/-- The two sides, and the stream between them. -/
structure Bulk where
  /-- The calls of `__bc_write_data` that have not returned, the one under way first. -/
  writes : List (Memory Byte × Transfer)
  stream : List Byte
  /-- Those of `__bc_read_data`. -/
  reads : List (Memory Byte × Transfer)
  /-- What the calls that returned have read. -/
  done : List (Memory Byte)

/-- A system call, with the piece it transfers. -/
inductive BulkAct
  | send (p : ℕ)
  | recv (p : ℕ)
deriving DecidableEq

namespace Bulk

/-- Once round a loop. -/
def step (d : DataModel) (s : Bulk) : BulkAct → Option Bulk
  | .send p =>
    match s.writes with
    | [] => none
    | (m, t) :: rest =>
      if 0 < p ∧ p ≤ t.remain then
        some { s with
          stream := s.stream ++ m.read t.off p
          writes := (bcWriteData d t p).elim rest fun t' => (m, t') :: rest }
      else none
  | .recv p =>
    match s.reads with
    | [] => none
    | (m, t) :: rest =>
      if 0 < p ∧ p ≤ t.remain ∧ p ≤ s.stream.length then
        match bcReadData d t p with
        | some t' =>
          some { s with
            stream := s.stream.drop p
            reads := (m.write t.off (s.stream.take p), t') :: rest }
        | none =>
          some { s with
            stream := s.stream.drop p
            reads := rest
            done := s.done ++ [m.write t.off (s.stream.take p)] }
      else none

/-- Before the first call. -/
def start (ms : List (Message d)) : Bulk := ⟨ms.map Message.write, [], ms.map Message.read, []⟩

/-- The bytes that are still to be sent. -/
def unsent (s : Bulk) : List Byte := s.writes.flatMap fun x => x.1.read x.2.off x.2.remain

/-- **What the reader has ahead**: the stream, and what is still to come on it. -/
def ahead (s : Bulk) : List Byte := s.stream ++ s.unsent

/-- No read is under way. -/
def Between (s : Bulk) : Prop := ∀ x ∈ s.reads.head?, x.2.off = 0

/-- How many bytes the two sides have still to transfer. -/
def left (s : Bulk) : ℕ :=
  (s.writes.map fun x => x.2.remain).sum + (s.reads.map fun x => x.2.remain).sum

/-- Where the reader stands, with the messages it has not read and the bytes ahead. -/
def Reading : List (Message d) → List (Memory Byte × Transfer) → List Byte → Prop
  | [], rs, bs => rs = [] ∧ bs = []
  | m :: ms, rs, bs => ∃ k < m.bytes, rs = (m.readTo k, ⟨k, m.bytes - k⟩) :: ms.map Message.read ∧
      bs = m.content.drop k ++ ms.flatMap Message.content

/-- **The invariant.** -/
structure Inv (ms : List (Message d)) (s : Bulk) : Prop where
  writes : ∀ x ∈ s.writes, 0 < x.2.remain ∧ x.2.remain < 2 ^ (8 * d.word)
  reads : ∃ old new, ms = old ++ new ∧ s.done = old.map (fun m => m.readTo m.bytes) ∧
    Reading new s.reads s.ahead

variable {s s' : Bulk} {ms : List (Message d)} {p : ℕ} {a : BulkAct}

theorem reading_start (ms : List (Message d)) :
    Reading ms (ms.map Message.read) (ms.flatMap Message.content) := by
  rcases ms with _ | ⟨m, ms⟩
  · exact ⟨rfl, rfl⟩
  · refine ⟨0, m.bytes_pos, ?_, rfl⟩
    rw [Message.readTo, List.take_zero, Memory.write_nil]
    rfl

theorem Inv.start (ms : List (Message d)) : (start ms).Inv ms where
  writes x hx := by
    obtain ⟨m, -, rfl⟩ := List.mem_map.mp hx
    exact ⟨m.bytes_pos, m.bytes_lt⟩
  reads := by
    refine ⟨[], ms, rfl, rfl, ?_⟩
    have hahead : (Bulk.start ms).ahead = ms.flatMap Message.content := by
      rw [ahead, unsent, Bulk.start, List.nil_append, List.flatMap_map]
      rfl
    rw [hahead]
    exact reading_start ms

/-- **One piece of a loop**: the call returns, or goes on behind the piece. -/
theorem next_piece {t : Transfer} (hp : 0 < p) (hle : p ≤ t.remain)
    (hlt : t.remain < 2 ^ (8 * d.word)) :
    p = t.remain ∧ next (2 ^ (8 * d.word)) 1 t p = none ∨
      p < t.remain ∧ next (2 ^ (8 * d.word)) 1 t p = some ⟨t.off + p, t.remain - p⟩ := by
  rcases Nat.eq_or_lt_of_le hle with rfl | hpr
  · exact Or.inl ⟨rfl, next_self _ _ _ _⟩
  · refine Or.inr ⟨hpr, ?_⟩
    rw [next_of_lt (by omega) (by omega) hlt, Int.mul_one]
    congr 2
    omega

/-- **A `send` moves bytes that are ahead**, from the writer to the stream. -/
theorem send_eq (h : s.Inv ms) (hs : s.step d (.send p) = some s') :
    s'.ahead = s.ahead ∧ s'.reads = s.reads ∧ s'.done = s.done ∧ s'.left < s.left ∧
      ∀ x ∈ s'.writes, 0 < x.2.remain ∧ x.2.remain < 2 ^ (8 * d.word) := by
  have hwrites := h.writes
  rw [step] at hs
  split at hs
  · cases hs
  · next m t rest heq =>
    obtain ⟨⟨hp, hle⟩, hs⟩ := Option.ite_none_right_eq_some.mp hs
    obtain rfl := Option.some.inj hs
    rw [heq] at hwrites
    obtain ⟨⟨-, hlt⟩, hrest⟩ := List.forall_mem_cons.mp hwrites
    rcases next_piece hp hle hlt with ⟨rfl, hnext⟩ | ⟨hpr, hnext⟩
    · have hreturn : bcWriteData d t t.remain = none := hnext
      refine ⟨?_, rfl, rfl, ?_, ?_⟩
      · simp [ahead, unsent, heq, hreturn]
      · simp only [left, heq, hreturn, Option.elim_none, List.map_cons, List.sum_cons]
        omega
      · simpa [hreturn] using hrest
    · have hgo : bcWriteData d t p = some ⟨t.off + p, t.remain - p⟩ := hnext
      have hread : m.read t.off t.remain = m.read t.off p ++ m.read (t.off + p) (t.remain - p) := by
        rw [← Memory.read_add, Nat.add_sub_cancel' hle]
      refine ⟨?_, rfl, rfl, ?_, ?_⟩
      · simp [ahead, unsent, heq, hgo, hread]
      · simp only [left, heq, hgo, Option.elim_some, List.map_cons, List.sum_cons]
        omega
      · simp only [hgo, Option.elim_some, List.forall_mem_cons]
        exact ⟨⟨Nat.sub_pos_of_lt hpr, (Nat.sub_le _ _).trans_lt hlt⟩, hrest⟩

/-- A piece is put behind the bytes that were read before. -/
theorem Message.readTo_add (m : Message d) (k p : ℕ) (hk : k ≤ m.bytes) :
    (m.readTo k).write k ((m.content.drop k).take p) = m.readTo (k + p) := by
  have hlen : (m.content.take k).length = k := by
    rw [List.length_take, Message.content, Memory.length_read, Nat.min_eq_left hk]
  have happend := Memory.write_append m.target 0 (m.content.take k) ((m.content.drop k).take p)
  rw [hlen, Int.zero_add, ← List.take_add] at happend
  exact happend

/-- A piece that the stream has and the message lacks is the next one of the message. -/
theorem take_piece {stream unsent content rest : List Byte}
    (hahead : stream ++ unsent = content ++ rest) (hstream : p ≤ stream.length)
    (hcontent : p ≤ content.length) :
    stream.take p = content.take p ∧ stream.drop p ++ unsent = content.drop p ++ rest := by
  constructor
  · have hsplit := congrArg (List.take p) hahead
    rwa [List.take_append_of_le_length hstream,
      List.take_append_of_le_length hcontent] at hsplit
  · have hsplit := congrArg (List.drop p) hahead
    rwa [List.drop_append_of_le_length hstream,
      List.drop_append_of_le_length hcontent] at hsplit

/-- **A `recv` takes what is ahead**, into the message that is being read. -/
theorem recv_inv (h : s.Inv ms) (hs : s.step d (.recv p) = some s') :
    s'.Inv ms ∧ s'.left < s.left := by
  obtain ⟨old, new, rfl, hdone, hreading⟩ := h.reads
  rw [step] at hs
  rcases new with _ | ⟨m, new⟩
  · obtain ⟨hnil, -⟩ := hreading
    rw [hnil] at hs
    cases hs
  obtain ⟨k, hk, hreads, hahead⟩ := hreading
  rw [hreads] at hs
  obtain ⟨⟨hp, hle, hstream⟩, hs⟩ := Option.ite_none_right_eq_some.mp hs
  dsimp only at hle
  have hlen : (m.content.drop k).length = m.bytes - k := by
    rw [List.length_drop, Message.content, Memory.length_read]
  -- the piece is the next one of the message
  obtain ⟨hpiece, hrest⟩ := take_piece hahead hstream (hlen ▸ hle)
  rw [List.drop_drop] at hrest
  have hwrite := Message.readTo_add m k p hk.le
  rw [← hpiece] at hwrite
  have hlt : m.bytes - k < 2 ^ (8 * d.word) := (Nat.sub_le _ _).trans_lt m.bytes_lt
  rcases next_piece (t := ⟨k, m.bytes - k⟩) hp hle hlt with ⟨hpr, hnext⟩ | ⟨hpr, hnext⟩
  · have hreturn : bcReadData d ⟨k, m.bytes - k⟩ p = none := hnext
    rw [hreturn] at hs
    obtain rfl := Option.some.inj hs
    dsimp only at hpr
    have hkp : k + p = m.bytes := by omega
    rw [hkp] at hwrite hrest
    refine ⟨⟨h.writes, old ++ [m], new, by simp, ?_, ?_⟩, ?_⟩
    · simp [hdone, hwrite]
    · have hdrop : m.content.drop m.bytes = [] := by simp [Message.content]
      rw [hdrop, List.nil_append] at hrest
      rw [ahead]
      exact hrest.symm ▸ reading_start new
    · simp only [left, hreads, List.map_cons, List.sum_cons]
      omega
  · have hgo : bcReadData d ⟨k, m.bytes - k⟩ p = some ⟨k + p, m.bytes - k - p⟩ := hnext
    rw [hgo] at hs
    obtain rfl := Option.some.inj hs
    dsimp only at hpr
    refine ⟨⟨h.writes, old, m :: new, rfl, hdone, k + p, by omega, ?_, hrest⟩, ?_⟩
    · simp only [hwrite, Nat.sub_sub, Int.natCast_add]
    · simp only [left, hreads, List.map_cons, List.sum_cons]
      omega

/-- **What a call does.** -/
theorem Inv.step (h : s.Inv ms) (hs : s.step d a = some s') : s'.Inv ms ∧ s'.left < s.left := by
  rcases a with p | p
  · obtain ⟨hahead, hreads, hdone, hleft, hwrites⟩ := send_eq h hs
    exact ⟨⟨hwrites, by rw [hahead, hreads, hdone]; exact h.reads⟩, hleft⟩
  · exact recv_inv h hs

theorem Inv.of_reaches (hs : Reaches (Bulk.step d) (Bulk.start ms) s) : s.Inv ms :=
  hs.invariant (fun _ _ _ h ha => (h.step ha).1) (.start ms)

/-- A side that is not done can go on, or waits for the other. -/
theorem Inv.finished (h : s.Inv ms) (hhalt : ∀ a, s.step d a = none) :
    s.writes = [] ∧ s.reads = [] ∧ s.stream = [] ∧ s.done.length = ms.length := by
  have hwrites : s.writes = [] := by
    rcases hw : s.writes with _ | ⟨⟨m, t⟩, rest⟩
    · rfl
    · have hpos := (h.writes (m, t) (by simp [hw])).1
      have hsend := hhalt (.send 1)
      rw [Bulk.step, hw] at hsend
      simp only [if_pos (show 0 < 1 ∧ 1 ≤ t.remain from ⟨Nat.one_pos, hpos⟩)] at hsend
      cases hsend
  have hahead : s.ahead = s.stream := by simp [ahead, unsent, hwrites]
  obtain ⟨old, new, rfl, hdone, hreading⟩ := h.reads
  rcases new with _ | ⟨m, new⟩
  · obtain ⟨hreads, hbs⟩ := hreading
    exact ⟨hwrites, hreads, hahead ▸ hbs, by simp [hdone]⟩
  · obtain ⟨k, hk, hreads, hbs⟩ := hreading
    have hstream : 0 < s.stream.length := by
      rw [← hahead, hbs, List.length_append, List.length_drop, Message.content,
        Memory.length_read]
      omega
    have hrecv := hhalt (.recv 1)
    rw [Bulk.step, hreads] at hrecv
    simp only [if_pos (show 0 < 1 ∧ 1 ≤ m.bytes - k ∧ 1 ≤ s.stream.length by omega)] at hrecv
    split at hrecv <;> cases hrecv

/-- Every read that has returned has its message. -/
theorem Inv.returned (h : s.Inv ms) : List.Forall₂
    (fun mem m => mem = m.target.write 0 m.content ∧ mem.read 0 m.bytes = m.content)
    s.done (ms.take s.done.length) := by
  obtain ⟨old, new, rfl, hdone, -⟩ := h.reads
  have hlen : s.done.length = old.length := by rw [hdone, List.length_map]
  rw [hlen, List.take_left, hdone, List.forall₂_map_left_iff, List.forall₂_same]
  intro m _
  have hcontent : m.content.length = m.bytes := Memory.length_read _ _ _
  have hread := Memory.read_write_self m.target 0 m.content
  rw [Message.readTo, List.take_of_length_le hcontent.le]
  exact ⟨rfl, hcontent ▸ hread⟩

/-- Between two reads, what is ahead is the messages that are not read. -/
theorem Inv.between (h : s.Inv ms) (hbetween : s.Between) :
    s.ahead = (ms.drop s.done.length).flatMap Message.content := by
  obtain ⟨old, new, rfl, hdone, hreading⟩ := h.reads
  have hlen : s.done.length = old.length := by rw [hdone, List.length_map]
  rw [hlen, List.drop_left]
  rcases new with _ | ⟨m, new⟩
  · exact hreading.2
  · obtain ⟨k, hk, hreads, hbs⟩ := hreading
    have hoff : (k : ℤ) = 0 := hbetween _ (by rw [hreads]; rfl)
    obtain rfl : k = 0 := by omega
    exact hbs

theorem left_start (ms : List (Message d)) :
    (start ms).left = 2 * (ms.map Message.bytes).sum := by
  simp only [left, start, List.map_map, Nat.two_mul]
  rfl

end Bulk

/-- **Bulk data survives any splitting**: every read that has returned has exactly the bytes of its
message, and has left those of the next one; no run is longer than the bytes to be sent and to be
received; and where neither side can go on, all calls have returned. -/
theorem bulk_data_survives (ms : List (Message d)) :
    (∀ s, Reaches (Bulk.step d) (Bulk.start ms) s →
      List.Forall₂ (fun mem m => mem = m.target.write 0 m.content ∧ mem.read 0 m.bytes = m.content)
        s.done (ms.take s.done.length) ∧
      (s.Between → s.ahead = (ms.drop s.done.length).flatMap Message.content)) ∧
    (∀ as s, run (Bulk.step d) (Bulk.start ms) as = some s →
      as.length ≤ 2 * (ms.map Message.bytes).sum) ∧
    ∀ s, Reaches (Bulk.step d) (Bulk.start ms) s → (∀ a, s.step d a = none) →
      s.writes = [] ∧ s.reads = [] ∧ s.stream = [] ∧ s.done.length = ms.length := by
  refine ⟨fun s hs => ?_, fun as s hs => ?_, fun s hs => (Bulk.Inv.of_reaches hs).finished⟩
  · have hinv := Bulk.Inv.of_reaches hs
    exact ⟨hinv.returned, hinv.between⟩
  · have hstep : ∀ u a v, u.Inv ms → Bulk.step d u a = some v → v.Inv ms ∧ v.left < u.left :=
      fun _ _ _ h ha => h.step ha
    obtain ⟨-, hbound⟩ := run_bounded hstep (.start ms) hs
    rw [Bulk.left_start] at hbound
    omega

end Libdsys
