import Libdsys.Machinery.Layout
import Libdsys.Branch.Iface
import Libdsys.Queue.Farmn
import Libdsys.Threads.Request

/-!
# Queue/VarLayout — the variable of a no-copy channel, as the application reads it

`bc_var` and `bc_vptr` look for the variable pointer where a `bc_nmc121_t` has it, whatever queue
the channel has.

    bc_nmc121_t   start  end  size  inbuff  du    vptr
    bc_nmc12m_t   rc     start  end  size   du    vptr

* `bcVptr_eq` — what they find there: the pointer, or `du` and the padding behind it.
* `var_of_queue_iff` — it is the pointer in every queue where a pointer is as large as an `int`.
-/

open Machinery CType

namespace Libdsys

variable (d : DataModel) (cond lock : CType)

/-- `bc_vptr_t`: `var` and `rcidx`. -/
def vptrFields : List CType := [cWord d, cInt]

/-- `bc_nmc121_t`: `start`, `end`, `size`, `inbuff`, `du`, `vptr`, and what is behind. -/
def nmc121Fields : List CType :=
  [cWord d, cWord d, cWord d, cInt, cInt, struct (vptrFields d), cond, lock]

/-- `bc_nmc12m_t`: `rc`, `start`, `end`, `size`, `du`, `vptr`, and what is behind. -/
def nmc12mFields : List CType :=
  [cWord d, cWord d, cWord d, cWord d, cInt, struct (vptrFields d), cond, lock]

/-- `bc_farmn_q_t`: `rc`, `start`, `end`, `size`, `du`, `pptr`, `cptr`, and what is behind. -/
def farmnFields : List CType :=
  [cWord d, cWord d, cWord d, cWord d, cInt, struct (vptrFields d), struct (vptrFields d),
    cond, lock]

/-- A pointer or a `size_t` in memory. -/
def loadWord (m : Memory Byte) (a : ℤ) : ℕ := ofBytes (m.read a d.word)

/-- An `int` in memory. -/
def loadInt (m : Memory Byte) (a : ℤ) : ℕ := ofBytes (m.read a 4)

/-- `q->nmc121`, `q->nmc12m` and `q->nmcus`: the members of a union are in one place. -/
def queuePtr (m : Memory Byte) (q : ℤ) : ℤ := loadWord d m q

/-- `bc_vptr`, for a channel whose `bc_queue_t` is at `q`. -/
def bcVptr (m : Memory Byte) (q : ℤ) : ℕ :=
  loadWord d m (queuePtr d m q + offset 0 (nmc121Fields d cond lock) 5 + offset 0 (vptrFields d) 0)

/-- A `bc_vptr_t` at `a`, whose pointer is into the block at `base`. -/
structure VptrAt (m : Memory Byte) (a : ℤ) (base : ℕ) (v : Vptr) : Prop where
  var : loadWord d m (a + offset 0 (vptrFields d) 0) = base + v.var
  rcidx : loadInt m (a + offset 0 (vptrFields d) 1) = v.rcidx

/-- A `bc_nmc12m_t` at `p`, with its slots at `base`. -/
structure Nmc12mAt (m : Memory Byte) (p : ℤ) (base : ℕ) (s : Nmc12m) : Prop where
  start : loadWord d m (p + offset 0 (nmc12mFields d cond lock) 1) = base
  memEnd : loadWord d m (p + offset 0 (nmc12mFields d cond lock) 2) = base + s.memEnd
  size : loadWord d m (p + offset 0 (nmc12mFields d cond lock) 3) = s.size
  du : loadInt m (p + offset 0 (nmc12mFields d cond lock) 4) = s.du
  vptr : VptrAt d m (p + offset 0 (nmc12mFields d cond lock) 5) base s.vptr

/-- A `bc_farmn_q_t` at `p`, with its slots at `base`. -/
structure FarmnAt (m : Memory Byte) (p : ℤ) (base : ℕ) (s : Farmn) : Prop where
  start : loadWord d m (p + offset 0 (farmnFields d cond lock) 1) = base
  memEnd : loadWord d m (p + offset 0 (farmnFields d cond lock) 2) = base + s.memEnd
  size : loadWord d m (p + offset 0 (farmnFields d cond lock) 3) = s.size
  du : loadInt m (p + offset 0 (farmnFields d cond lock) 4) = s.du
  pptr : VptrAt d m (p + offset 0 (farmnFields d cond lock) 5) base s.pptr
  cptr : VptrAt d m (p + offset 0 (farmnFields d cond lock) 6) base s.cptr

/-- The queue of a no-copy channel. -/
inductive NoCopyQueue
  | nmc12m (s : Nmc12m)
  | farmn (s : Farmn)

namespace NoCopyQueue

def qtype : NoCopyQueue → Qtype
  | nmc12m _ => .nmc12m
  | farmn _ => .farmn

/-- The producer's current slot. -/
def slot : NoCopyQueue → ℕ
  | nmc12m s => s.vptr.var
  | farmn s => s.pptr.var

def du : NoCopyQueue → ℕ
  | nmc12m s => s.du
  | farmn s => s.du

/-- The queue is in memory at `p`. -/
def At (m : Memory Byte) (p : ℤ) (base : ℕ) : NoCopyQueue → Prop
  | nmc12m s => Nmc12mAt d cond lock m p base s
  | farmn s => FarmnAt d cond lock m p base s

end NoCopyQueue

/-- A sink of a role, with its `bc_queue_t` at `q`. -/
structure SinkAt (role : Role) (m : Memory Byte) (q : ℤ) (base : ℕ) (s : NoCopyQueue) : Prop where
  role : role.c.map Prod.snd = some s.qtype
  queue : s.At d cond lock m (queuePtr d m q) base

/-- The four bytes behind `du`, where that is an `int` before a pointer of eight. -/
def padding (m : Memory Byte) (q : ℤ) : ℕ :=
  loadInt m (queuePtr d m q + offset 0 (nmc12mFields d cond lock) 4 + 4)

/-! ## What is found -/

variable {d cond lock} {role : Role} {m : Memory Byte} {q : ℤ} {base : ℕ} {s : NoCopyQueue}

/-- A word of eight bytes is two of four. -/
theorem loadWord_lp64 (m : Memory Byte) (a : ℤ) :
    loadWord .lp64 m a = loadInt m a + 2 ^ 32 * loadInt m (a + 4) := by
  rw [loadWord, DataModel.word, show (8 : ℕ) = 4 + 4 from rfl, Memory.read_add, ofBytes_append,
    Memory.length_read]
  rfl

/-- Before the pointer there are as many words and as many `int`s as in a `bc_nmc121_t`. -/
theorem bcVptr_ilp32 (h : s.At .ilp32 cond lock m (queuePtr .ilp32 m q) base) :
    bcVptr .ilp32 cond lock m q = base + s.slot := by
  cases s with
  | nmc12m s => exact h.vptr.var
  | farmn s => exact h.pptr.var

/-- The pointer of a `bc_nmc121_t` is where the others have `du`. -/
theorem bcVptr_lp64 (h : s.At .lp64 cond lock m (queuePtr .lp64 m q) base) :
    bcVptr .lp64 cond lock m q = s.du + 2 ^ 32 * padding .lp64 cond lock m q := by
  have hdu : loadInt m (queuePtr .lp64 m q + 32) = s.du := by
    cases s with
    | nmc12m s => exact h.du
    | farmn s => exact h.du
  have haddr : queuePtr .lp64 m q + offset 0 (nmc121Fields .lp64 cond lock) 5 +
      offset 0 (vptrFields .lp64) 0 = queuePtr .lp64 m q + 32 := Int.add_zero _
  rw [bcVptr, haddr, loadWord_lp64, hdu]
  rfl

/-- **What `bc_vptr` finds.** -/
theorem bcVptr_eq_iff (h : SinkAt d cond lock role m q base s) :
    bcVptr d cond lock m q = base + s.slot ↔
      d.word = 4 ∨ base + s.slot = s.du + 2 ^ 32 * padding d cond lock m q := by
  cases d with
  | ilp32 => exact iff_of_true (bcVptr_ilp32 h.queue) (.inl rfl)
  | lp64 =>
    rw [bcVptr_lp64 h.queue, or_iff_right (by decide)]
    exact eq_comm

/-! ## A queue of one slot -/

/-- A queue of one slot of one byte, at 4096, with its record at 64 and its `bc_queue_t` at 0. -/
def oneSlot : Memory Byte :=
  let vptr := toBytes 8 4096 ++ toBytes 8 0
  (storeFields 64 0 [(cWord .lp64, toBytes 8 0), (cWord .lp64, toBytes 8 4096),
    (cWord .lp64, toBytes 8 4097), (cWord .lp64, toBytes 8 1), (cInt, toBytes 4 1),
    (struct (vptrFields .lp64), vptr), (struct (vptrFields .lp64), vptr)] fun _ => 0).write 0
    (toBytes 8 64)

/-- The slot, without memory copy from one to many. -/
def oneSlotNmc12m : NoCopyQueue := .nmc12m (internalNmc12mCreate (fun _ => 0) (fun _ => 0) 1 1)

/-- The slot of a farm. -/
def oneSlotFarmn : NoCopyQueue := .farmn (internalFarmnQCreate (fun _ => 0) (fun _ => 0) 1 1)

theorem queuePtr_oneSlot : queuePtr .lp64 oneSlot 0 = 64 := by decide

theorem at_oneSlotNmc12m (cond lock : CType) :
    oneSlotNmc12m.At .lp64 cond lock oneSlot (queuePtr .lp64 oneSlot 0) 4096 := by
  have hstart : loadWord .lp64 oneSlot 72 = 4096 := by decide
  have hend : loadWord .lp64 oneSlot 80 = 4097 := by decide
  have hsize : loadWord .lp64 oneSlot 88 = 1 := by decide
  have hdu : loadInt oneSlot 96 = 1 := by decide
  have hvar : loadWord .lp64 oneSlot 104 = 4096 := by decide
  have hrcidx : loadInt oneSlot 112 = 0 := by decide
  rw [queuePtr_oneSlot]
  exact ⟨hstart, hend, hsize, hdu, hvar, hrcidx⟩

theorem at_oneSlotFarmn (cond lock : CType) :
    oneSlotFarmn.At .lp64 cond lock oneSlot (queuePtr .lp64 oneSlot 0) 4096 := by
  have hcptr : loadWord .lp64 oneSlot 120 = 4096 := by decide
  have hcidx : loadInt oneSlot 128 = 0 := by decide
  have hrest := at_oneSlotNmc12m cond lock
  rw [queuePtr_oneSlot] at hrest ⊢
  exact ⟨hrest.start, hrest.memEnd, hrest.size, hrest.du, hrest.vptr, hcptr, hcidx⟩

theorem bcVptr_oneSlot
    (h : s.At .lp64 cond lock oneSlot (queuePtr .lp64 oneSlot 0) 4096) :
    bcVptr .lp64 cond lock oneSlot 0 = s.du := by
  have hzero : loadInt oneSlot 100 = 0 := by decide
  have hpadding : padding .lp64 cond lock oneSlot 0 = 0 := by
    rw [padding, queuePtr_oneSlot]
    exact hzero
  rw [bcVptr_lp64 h, hpadding]
  exact Nat.add_zero _

/-- **`bc_vptr` finds the producer's slot in every queue exactly where a pointer has four bytes**;
where it has eight, it does in a queue whose slot is by chance at the address that `du` and the
padding behind it make. -/
theorem var_of_queue_iff (d : DataModel) (cond lock : CType) {role : Role}
    (h : role.c.map Prod.snd = some .nmc12m ∨ role.c.map Prod.snd = some .farmn) :
    ((∀ m q base s, SinkAt d cond lock role m q base s →
      bcVptr d cond lock m q = base + s.slot) ↔ d.word = 4) ∧
    ∀ m q base s, SinkAt d cond lock role m q base s → (bcVptr d cond lock m q = base + s.slot ↔
      d.word = 4 ∨ base + s.slot = s.du + 2 ^ 32 * padding d cond lock m q) := by
  refine ⟨⟨fun hall => ?_, fun hword m q base s hsink => ?_⟩,
    fun m q base s hsink => bcVptr_eq_iff hsink⟩
  · cases d with
    | ilp32 => rfl
    | lp64 =>
      rcases h with hrole | hrole
      · have hsink := hall oneSlot 0 4096 oneSlotNmc12m ⟨hrole, at_oneSlotNmc12m cond lock⟩
        rw [bcVptr_oneSlot (at_oneSlotNmc12m cond lock)] at hsink
        exact absurd hsink (by decide)
      · have hsink := hall oneSlot 0 4096 oneSlotFarmn ⟨hrole, at_oneSlotFarmn cond lock⟩
        rw [bcVptr_oneSlot (at_oneSlotFarmn cond lock)] at hsink
        exact absurd hsink (by decide)
  · exact (bcVptr_eq_iff hsink).mpr (.inl hword)

/-- A channel of role `PIPEN` where a pointer has four bytes. -/
theorem var_of_queue_iff_pipen : DataModel.ilp32.word = 4 ∧
    ∀ m q base s, SinkAt .ilp32 cInt cInt .pipen m q base s →
      bcVptr .ilp32 cInt cInt m q = base + s.slot :=
  ⟨rfl, (@var_of_queue_iff .ilp32 cInt cInt .pipen (.inl rfl)).1.mpr rfl⟩

/-- Where it has eight, the number of units is taken for the address. -/
theorem du_for_var : SinkAt .lp64 cInt cInt .pipen oneSlot 0 4096 oneSlotNmc12m ∧
    oneSlotNmc12m.slot = 0 ∧ bcVptr .lp64 cInt cInt oneSlot 0 = 1 :=
  ⟨⟨rfl, at_oneSlotNmc12m cInt cInt⟩, rfl, by decide⟩

end Libdsys
