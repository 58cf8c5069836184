import Mathlib.Combinatorics.Enumerative.Composition
import Libdsys.Machinery.Transfer
import Libdsys.Branch.Integer
import Libdsys.Threads.Service

/-!
# Threads/Request — requests on a stream

A request is sent as the bytes of its structure, and received into one.  Both loops count what
remains in bytes, and add the bytes transferred to a pointer to requests.

* `unpack_pack` — the bytes of a request are the request.
* `survives_iff` — requests arrive if none is transferred in more than one piece, and only then.
-/

open Machinery Transfer

namespace Libdsys

/-- What `long`, `size_t` and pointers are wide; an `int` has 4 bytes. -/
inductive DataModel
  | ilp32
  | lp64
deriving Repr, DecidableEq

/-- The bytes of a `long`, of a `size_t` and of a pointer. -/
def DataModel.word : DataModel → ℕ
  | ilp32 => 4
  | lp64 => 8

theorem DataModel.word_pos (d : DataModel) : 0 < d.word := by
  cases d <;> decide

/-- The values of `bc_service_t`. -/
def ServiceCode.toNat : ServiceCode → ℕ
  | get => 0
  | kill => 1
  | echo => 2
  | condGet => 3

/-- The code with a value. -/
def ServiceCode.ofNat? : ℕ → Option ServiceCode
  | 0 => some get
  | 1 => some kill
  | 2 => some echo
  | 3 => some condGet
  | _ => none

variable (d : DataModel)

/-- An `int`, an `unsigned int` or a value of an enumeration. -/
def cInt : CType := .scalar 4

/-- A `long`, a `size_t` or a pointer. -/
def cWord : CType := .scalar d.word d.word_pos

/-- `bc_request_t`: `code`, `tag` and `dunits`. -/
def requestType : List CType := [cInt, cWord d, cInt]

/-- `sizeof (bc_request_t)`. -/
def sizeofRequest : ℕ := (CType.struct (requestType d)).size

/-- `request.code = code; request.tag = tag; request.dunits = dunits`. -/
def pack (r : ServiceRequest) : Memory Byte → Memory Byte :=
  storeFields 0 0 [(cInt, toBytes 4 r.code.toNat), (cWord d, toBytes d.word r.tag),
    (cInt, toBytes 4 r.dunits)]

/-- The fields of a request in memory, where its code is one. -/
def unpack (m : Memory Byte) : Option ServiceRequest :=
  match loadFields m 0 0 (requestType d) with
  | [code, tag, dunits] =>
    (ServiceCode.ofNat? (ofBytes code)).map fun code => ⟨code, ofBytes tag, ofBytes dunits⟩
  | _ => none

/-- A request that goes over a stream: what is in memory where it is packed and where it is
received, and into what pieces `send` and `recv` split it. -/
structure Exchange where
  request : ServiceRequest
  tag_lt : request.tag < 2 ^ (8 * d.word)
  dunits_lt : request.dunits < 2 ^ 32
  stack : Memory Byte
  into : Memory Byte
  sendSplit : Composition (sizeofRequest d)
  recvSplit : Composition (sizeofRequest d)

variable {d}

namespace Exchange

/-- The loop of `__bc_request_send`: its pointer is to a request. -/
def sendStep (d : DataModel) : Transfer → ℤ → Option Transfer :=
  next (2 ^ (8 * d.word)) (sizeofRequest d)

/-- The loop of `__bc_request_recv`: it returns at the end of the stream too. -/
def recvStep (d : DataModel) (t : Transfer) (r : ℤ) : Option Transfer :=
  if r = 0 then none else next (2 ^ (8 * d.word)) (sizeofRequest d) t r

/-- Where both begin. -/
def start (d : DataModel) : Transfer := ⟨0, sizeofRequest d⟩

def sendResults (x : Exchange d) : List ℤ := x.sendSplit.blocks.map Nat.cast

def recvResults (x : Exchange d) : List ℤ := x.recvSplit.blocks.map Nat.cast

/-- The calls of `send`. -/
def sendCalls (x : Exchange d) : List (Transfer × ℤ) := calls (sendStep d) (start d) x.sendResults

/-- The calls of `recv`. -/
def recvCalls (x : Exchange d) : List (Transfer × ℤ) := calls (recvStep d) (start d) x.recvResults

/-- `__bc_request_send`: what it appends to the stream. -/
def bytes (x : Exchange d) : List Byte := Transfer.sent (pack d x.request x.stack) x.sendCalls

/-- `__bc_request_recv`: the request received, and what is left of the stream. -/
def recv (x : Exchange d) (stream : List Byte) : Option ServiceRequest × List Byte :=
  let (m, stream) := received x.into stream x.recvCalls
  (unpack d m, stream)

/-- All the requests, received one after another. -/
def recvAll : List (Exchange d) → List Byte → List (Option ServiceRequest × List Byte)
  | [], _ => []
  | x :: xs, stream => x.recv stream :: recvAll xs (x.recv stream).2

/-- What is left of the stream behind each request, where the stream is aligned. -/
def aligned : List (Exchange d) → List (List Byte)
  | [] => []
  | _ :: xs => xs.flatMap bytes :: aligned xs

end Exchange

open Exchange

/-- **Requests survive their transfer**: both loops return, they touch nothing but the structure,
the requests received are those sent, and behind each the stream goes on with the next. -/
structure Survives (xs : List (Exchange d)) : Prop where
  returns : ∀ x ∈ xs, stands (sendStep d) (start d) x.sendResults = none ∧
    stands (recvStep d) (start d) x.recvResults = none
  touches : ∀ x ∈ xs, ∀ c ∈ x.sendCalls ++ x.recvCalls, Touches (sizeofRequest d) c
  requests : (recvAll xs (xs.flatMap bytes)).map Prod.fst = xs.map fun x => some x.request
  streams : (recvAll xs (xs.flatMap bytes)).map Prod.snd = aligned xs

/-! ## The bytes of a request -/

theorem sizeofRequest_pos (d : DataModel) : 0 < sizeofRequest d := by
  cases d <;> decide

theorem sizeofRequest_lt (d : DataModel) : sizeofRequest d < 2 ^ (8 * d.word) := by
  cases d <;> decide

theorem ServiceCode.ofNat?_toNat (code : ServiceCode) : ofNat? code.toNat = some code := by
  cases code <;> rfl

theorem ServiceCode.toNat_lt (code : ServiceCode) : code.toNat < 2 ^ (8 * 4) := by
  cases code <;> decide

/-- **The bytes of a request are the request.** -/
theorem unpack_pack (d : DataModel) {r : ServiceRequest} (htag : r.tag < 2 ^ (8 * d.word))
    (hdunits : r.dunits < 2 ^ 32) (m : Memory Byte) : unpack d (pack d r m) = some r := by
  have hload : loadFields (pack d r m) 0 0 (requestType d) =
      [toBytes 4 r.code.toNat, toBytes d.word r.tag, toBytes 4 r.dunits] := by
    refine loadFields_storeFields fun f hf => ?_
    simp only [List.mem_cons, List.not_mem_nil, or_false] at hf
    rcases hf with rfl | rfl | rfl <;> exact length_toBytes _ _
  simp only [unpack, hload, ofBytes_toBytes, Nat.mod_eq_of_lt htag, Nat.mod_eq_of_lt hdunits,
    Nat.mod_eq_of_lt r.code.toNat_lt, ServiceCode.ofNat?_toNat, Option.map_some]

/-- It is in the cells of its structure. -/
theorem unpack_congr {m m' : Memory Byte}
    (h : m.read 0 (sizeofRequest d) = m'.read 0 (sizeofRequest d)) : unpack d m = unpack d m' := by
  have hstop := CType.stop_le_struct (requestType d)
  have hload : loadFields m 0 0 (requestType d) = loadFields m' 0 0 (requestType d) :=
    loadFields_congr fun c hge hlt => Memory.eq_of_read_eq h hge (by rw [sizeofRequest]; omega)
  rw [unpack, unpack, hload]

/-! ## Pieces -/

namespace Exchange

variable {x : Exchange d} {xs : List (Exchange d)}

theorem recvStep_eq {t : Transfer} {r : ℤ} (h : r ∈ x.recvResults) :
    recvStep d t r = sendStep d t r := by
  obtain ⟨p, hp, rfl⟩ := List.mem_map.mp h
  have hpos := x.recvSplit.blocks_pos hp
  rw [recvStep, if_neg (by omega), sendStep]

/-- No piece is the end of the stream, so that both loops do the same with them. -/
theorem recvCalls_eq (x : Exchange d) :
    x.recvCalls = calls (sendStep d) (start d) x.recvResults :=
  calls_congr fun _ _ hr => recvStep_eq hr

theorem returns_pieces (c : Composition (sizeofRequest d)) :
    stands (sendStep d) (start d) (c.blocks.map Nat.cast) = none := by
  have hne : c.blocks ≠ [] := by
    rw [Ne, c.blocks_eq_nil]
    exact (sizeofRequest_pos d).ne'
  have hM : c.blocks.sum < 2 ^ (8 * d.word) := c.blocks_sum.trans_lt (sizeofRequest_lt d)
  have hstands := stands_pieces (sizeofRequest d) 0 (fun _ hp => c.blocks_pos hp) hne hM
  rwa [c.blocks_sum] at hstands

theorem blocks_of_whole {n : ℕ} {c : Composition n} (h : c.length = 1) : c.blocks = [n] := by
  obtain ⟨p, hp⟩ := List.length_eq_one_iff.mp h
  have hsum := c.blocks_sum
  rw [hp, List.sum_singleton] at hsum
  rw [hp, hsum]

theorem calls_of_whole {c : Composition (sizeofRequest d)} (h : c.length = 1) :
    calls (sendStep d) (start d) (c.blocks.map Nat.cast) =
      [(start d, (sizeofRequest d : ℤ))] := by
  rw [blocks_of_whole h]
  exact calls_whole _ _ _ _

/-- **The second piece is not in the structure**: it is behind as many structures as the first has
bytes. -/
theorem whole_of_touches {c : Composition (sizeofRequest d)}
    (h : ∀ a ∈ calls (sendStep d) (start d) (c.blocks.map Nat.cast), Touches (sizeofRequest d) a) :
    c.length = 1 := by
  have hpos := sizeofRequest_pos d
  have hsum := c.blocks_sum
  rw [← c.blocks_length]
  rcases hblocks : c.blocks with _ | ⟨p, _ | ⟨p', ps⟩⟩
  · rw [hblocks, List.sum_nil] at hsum
    omega
  · rfl
  · have hp : 0 < p := c.blocks_pos (by simp [hblocks])
    have hp' : 0 < p' := c.blocks_pos (by simp [hblocks])
    rw [hblocks] at h hsum
    have hM : (p :: p' :: ps).sum < 2 ^ (8 * d.word) := hsum.trans_lt (sizeofRequest_lt d)
    have hmem := second_mem_calls (sizeofRequest d) 0 p ps hp' hM
    rw [hsum] at hmem
    have hle := (h _ hmem).2
    have hmul : sizeofRequest d ≤ p * sizeofRequest d := Nat.le_mul_of_pos_left _ hp
    dsimp only at hle
    omega

/-- A request that goes in one piece. -/
structure Whole (x : Exchange d) : Prop where
  send : x.sendSplit.length = 1
  recv : x.recvSplit.length = 1

/-- **It arrives**, and the stream goes on behind it. -/
theorem Whole.recv_eq (h : x.Whole) (rest : List Byte) :
    x.recv (x.bytes ++ rest) = (some x.request, rest) := by
  have hbytes : x.bytes = (pack d x.request x.stack).read 0 (sizeofRequest d) := by
    rw [bytes, sendCalls, sendResults, calls_of_whole h.send]
    exact List.append_nil _
  have hlength : x.bytes.length = sizeofRequest d := by rw [hbytes, Memory.length_read]
  have hcalls : x.recvCalls = [(start d, (sizeofRequest d : ℤ))] := by
    rw [recvCalls_eq, recvResults, calls_of_whole h.recv]
  have hreceived : received x.into (x.bytes ++ rest) x.recvCalls =
      (x.into.write 0 x.bytes, rest) := by
    rw [hcalls, received, received, Int.toNat_natCast, List.take_left' hlength,
      List.drop_left' hlength]
    rfl
  have hread : (x.into.write 0 x.bytes).read 0 (sizeofRequest d) =
      (pack d x.request x.stack).read 0 (sizeofRequest d) := by
    rw [← hbytes, ← hlength, Memory.read_write_self]
  rw [Exchange.recv, hreceived]
  dsimp only
  rw [unpack_congr hread, unpack_pack d x.tag_lt x.dunits_lt]

theorem length_aligned (xs : List (Exchange d)) : (aligned xs).length = xs.length := by
  induction xs with
  | nil => rfl
  | cons x xs ih => exact congrArg (· + 1) ih

theorem recvAll_whole (h : ∀ x ∈ xs, Whole x) :
    recvAll xs (xs.flatMap bytes) =
      (xs.map fun x => some x.request).zip (aligned xs) := by
  induction xs with
  | nil => rfl
  | cons x xs ih =>
    rw [List.flatMap_cons, recvAll, (h x List.mem_cons_self).recv_eq,
      ih fun y hy => h y (List.mem_cons_of_mem x hy)]
    rfl

end Exchange

/-- **Requests survive their transfer exactly when none is split**, by `send` or by `recv`. -/
theorem survives_iff {d : DataModel} (xs : List (Exchange d)) :
    Survives xs ↔ ∀ x ∈ xs, x.sendSplit.length = 1 ∧ x.recvSplit.length = 1 := by
  constructor
  · intro h x hx
    have htouches := h.touches x hx
    refine ⟨whole_of_touches fun c hc => htouches c (List.mem_append_left _ hc), ?_⟩
    refine whole_of_touches fun c hc => htouches c (List.mem_append_right _ ?_)
    rwa [recvCalls_eq]
  · intro h
    have hwhole : ∀ x ∈ xs, Whole x := fun x hx => ⟨(h x hx).1, (h x hx).2⟩
    refine ⟨fun x hx => ⟨returns_pieces _, ?_⟩, fun x hx c hc => ?_, ?_, ?_⟩
    · rw [stands_congr fun _ _ hr => recvStep_eq hr]
      exact returns_pieces _
    · have hc' : c = (start d, (sizeofRequest d : ℤ)) := by
        rw [recvCalls_eq, sendCalls, sendResults, recvResults, calls_of_whole (h x hx).1,
          calls_of_whole (h x hx).2] at hc
        simpa using hc
      rw [hc']
      exact ⟨le_rfl, (zero_add _).le⟩
    · rw [recvAll_whole hwhole]
      exact List.map_fst_zip (by simp [length_aligned])
    · rw [recvAll_whole hwhole]
      exact List.map_snd_zip (by simp [length_aligned])

/-- A GET with tag 3 for one unit, of which `send` takes one byte first. -/
def splitRequest : Exchange .lp64 where
  request := ⟨.get, 3, 1⟩
  tag_lt := by decide
  dunits_lt := by decide
  stack := fun _ => 0
  into := fun _ => 0
  sendSplit := ⟨[1, 23], by decide, by decide⟩
  recvSplit := ⟨[24], by decide, by decide⟩

/-- The rest of it is taken from behind the structure: what arrives has another tag. -/
theorem split_request : ¬Survives [splitRequest] ∧
    splitRequest.sendCalls = [(⟨0, 24⟩, 1), (⟨24, 23⟩, 23)] ∧
    splitRequest.recv splitRequest.bytes = (some ⟨.get, 0, 0⟩, []) := by
  refine ⟨fun h => ?_, by decide, by decide⟩
  have hwhole : splitRequest.sendSplit.length = 1 := whole_of_touches fun c hc =>
    h.touches splitRequest List.mem_cons_self c (List.mem_append_left _ hc)
  exact absurd hwhole (by decide)

end Libdsys
