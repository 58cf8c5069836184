import Libdsys.Branch.PlistSets
import Libdsys.Branch.Reduce

/-!
# Branch/ReduceOpt — the calls of `bc_reduce_operator`

`__bc_r_opt_reduce` reads every producer's block into one buffer, one behind the other, and calls
the operator once for each unit.  Its loop moves `temp`, the only pointer to the buffer: the
operator finds the first producer's unit there, and the pointer that is freed at the end is behind
the first producer's block.

The operator looks for the `k`-th operand `offset * count * k` behind its argument, and the units of
two producers are `du` units apart: these agree where there are as many producers as units.

* `optUnits_eq` — the calls, and what the loop leaves.
* `opt_reduce_never` — the block that is freed is never the one that was allocated.
-/

open Machinery

namespace Libdsys

/-- A call of `bc_reduce_operator`: where its argument points to in the buffer, its two numbers, and
the buffer then. -/
structure OptCall where
  buffer : ℕ
  offset : ℕ
  count : ℕ
  block : List Byte

/-- `buffer + offset * count * k`, where the product is of `int`s. -/
def OptCall.operand (call : OptCall) (k : ℕ) : ℤ :=
  call.buffer + asInt (call.offset * call.count * k)

/-- The `k`-th operand, as `custom_reduce` reads it — `none` outside the buffer. -/
def OptCall.reads (call : OptCall) (k : ℕ) : Option (List Byte) :=
  if 0 ≤ call.operand k then readAt call.block (call.operand k).toNat call.offset else none

/-- The last loop of `__bc_r_opt_reduce` from `temp` and `out_ptr` on: its calls, where `temp`
points to when it is freed, and `local`. -/
def optLoop (operator : List Byte → ℕ → ℕ → List Byte) (bytes count : ℕ) :
    ℕ → ℕ → ℕ → List Byte → List Byte → Option (List OptCall × ℕ × List Byte)
  | 0, temp, _, _, loc => some ([], temp, loc)
  | du + 1, temp, off, block, loc => do
    let after := block.take temp ++ operator (block.drop temp) bytes count
    let out ← readAt after temp bytes
    let loc ← writeAt loc off out
    let (calls, freed, loc) ←
      optLoop operator bytes count du (temp + bytes) (off + bytes) after loc
    return (⟨temp, bytes, count, block⟩ :: calls, freed, loc)

/-- **Every call finds its operands**: the `k`-th operand of the `i`-th call is the `i`-th unit of
the `k`-th producer. -/
def SeesOperands (bytes : ℕ) (blocks : List (List Byte)) (calls : List OptCall) : Prop :=
  ∀ i call, calls[i]? = some call → ∀ k bs, blocks[k]? = some bs →
    call.reads k = some (unit bytes i bs)

variable {operator : List Byte → ℕ → ℕ → List Byte} {bytes count du temp off freed : ℕ}
  {block loc out : List Byte} {calls : List OptCall}

/-- One round. -/
theorem optLoop_succ : optLoop operator bytes count (du + 1) temp off block loc =
    (readAt (block.take temp ++ operator (block.drop temp) bytes count) temp bytes).bind fun out =>
      (writeAt loc off out).bind fun loc =>
        (optLoop operator bytes count du (temp + bytes) (off + bytes)
          (block.take temp ++ operator (block.drop temp) bytes count) loc).map fun x =>
            (⟨temp, bytes, count, block⟩ :: x.1, x.2) := by
  rw [optLoop]
  simp only [Option.map_eq_bind]
  rfl

/-- What the operator leaves, from its argument on. -/
theorem drop_after (h : temp ≤ block.length) (l : List Byte) :
    (block.take temp ++ l).drop temp = l := List.drop_left' (List.length_take_of_le h)

/-- **The loop, with its calls.** -/
theorem optUnits_eq (h : temp ≤ block.length) :
    optUnits operator bytes count du off (block.drop temp) loc =
      (optLoop operator bytes count du temp off block loc).map fun x => x.2.2 := by
  induction du generalizing temp off block loc with
  | zero => rfl
  | succ du ih =>
    have hto : (block.take temp).length = temp := List.length_take_of_le h
    have hread : readAt (block.take temp ++ operator (block.drop temp) bytes count) temp bytes =
        readAt (operator (block.drop temp) bytes count) 0 bytes := by
      simp only [readAt, List.length_append, hto, drop_after h, List.drop_zero, Nat.zero_add,
        Nat.add_le_add_iff_left]
    rw [optUnits, optLoop_succ, hread, Option.bind_eq_bind, Option.map_bind]
    refine Option.bind_congr fun out hout => ?_
    have hlong : bytes ≤ (operator (block.drop temp) bytes count).length := by
      simpa using (Option.ite_none_right_eq_some.mp hout).1
    rw [Function.comp_apply, Option.map_bind]
    refine Option.bind_congr fun loc _ => ?_
    rw [Function.comp_apply, Option.map_map]
    have hrest : (block.take temp ++ operator (block.drop temp) bytes count).drop (temp + bytes) =
        (operator (block.drop temp) bytes count).drop bytes := by
      rw [← List.drop_drop, drop_after h]
    rw [← hrest]
    exact ih (by rw [List.length_append, hto]; omega)

/-- What the loop calls the operator with, and what it frees. -/
theorem optLoop_calls
    (h : optLoop operator bytes count du temp off block loc = some (calls, freed, out)) :
    freed = temp + du * bytes ∧ calls.length = du ∧ ∀ i call, calls[i]? = some call →
      call.buffer = temp + i * bytes ∧ call.offset = bytes ∧ call.count = count := by
  induction du generalizing temp off block loc calls with
  | zero =>
    obtain ⟨rfl, rfl, rfl⟩ : [] = calls ∧ temp = freed ∧ loc = out := by simpa [optLoop] using h
    exact ⟨by omega, rfl, fun i call hi => by simp at hi⟩
  | succ du ih =>
    simp only [optLoop_succ, Option.bind_eq_some_iff, Option.map_eq_some_iff] at h
    obtain ⟨bs, -, loc₁, -, ⟨rest, freed, out⟩, hrest, heq⟩ := h
    obtain ⟨rfl, rfl, rfl⟩ : _ :: rest = calls ∧ freed = _ ∧ out = _ := by simpa using heq
    obtain ⟨rfl, rfl, hcalls⟩ := ih hrest
    refine ⟨by rw [Nat.succ_mul]; omega, rfl, ?_⟩
    rintro (_ | i) call hi
    · obtain rfl := Option.some.inj hi
      exact ⟨by simp, rfl, rfl⟩
    · obtain ⟨hbuffer, hnumbers⟩ := hcalls i call hi
      exact ⟨by rw [hbuffer, Nat.succ_mul]; omega, hnumbers⟩

/-- The loop gets through, if the operator stays in the buffer. -/
theorem exists_optLoop (hkeeps : ∀ l b n, (operator l b n).length = l.length)
    (hblock : temp + du * bytes ≤ block.length) (hloc : off + du * bytes ≤ loc.length) :
    ∃ calls freed out,
      optLoop operator bytes count du temp off block loc = some (calls, freed, out) := by
  induction du generalizing temp off block loc with
  | zero => exact ⟨_, _, _, rfl⟩
  | succ du ih =>
    rw [Nat.succ_mul] at hblock hloc
    have hafter : (block.take temp ++ operator (block.drop temp) bytes count).length =
        block.length := by
      rw [List.length_append, hkeeps, ← List.length_append, List.take_append_drop]
    rw [optLoop_succ]
    generalize block.take temp ++ operator (block.drop temp) bytes count = after at hafter ⊢
    obtain ⟨bs, hread, hbs⟩ := exists_readAt (show temp + bytes ≤ after.length by omega)
    obtain ⟨loc₁, hwrite, hlength⟩ := exists_writeAt (show off + bs.length ≤ loc.length by omega)
    obtain ⟨calls, freed, out, hrest⟩ := @ih (temp + bytes) (off + bytes) after loc₁ (by omega)
      (by omega)
    refine ⟨⟨temp, bytes, count, block⟩ :: calls, freed, out, ?_⟩
    rw [hread, Option.bind_some, hwrite, Option.bind_some, hrest]
    rfl

theorem asInt_emod (n : ℕ) : asInt n % 2 ^ 32 = (n : ℤ) % 2 ^ 32 := Int.bmod_emod

/-- Strides that agree are of as many producers as units. -/
theorem count_eq_of_strides (hbytes : 1 ≤ bytes) (hdu : 1 ≤ du) (hcount : 1 < count)
    (h : ∀ k < count, asInt (bytes * count * k) = (k * (du * bytes) : ℕ)) :
    count = du ∧ bytes * count * (count - 1) < 2 ^ 31 := by
  have hfirst := h 1 hcount
  have hlast := h (count - 1) (Nat.sub_one_lt_of_lt hcount)
  have hfits := asInt_lt (bytes * count * (count - 1))
  rw [hlast] at hfits
  rw [Nat.mul_one, Nat.one_mul] at hfirst
  have hmod := asInt_emod (bytes * count)
  rw [hfirst] at hmod
  have hsplit : bytes * count = (count - 1) * bytes + bytes := by
    rw [← Nat.succ_mul, Nat.succ_eq_add_one, Nat.sub_add_cancel hcount.le, Nat.mul_comm]
  have hunit : bytes ≤ du * bytes := Nat.le_mul_of_pos_left _ hdu
  have hone : du * bytes ≤ (count - 1) * (du * bytes) := Nat.le_mul_of_pos_left _ (by omega)
  have hgap : (count - 1) * bytes ≤ (count - 1) * (du * bytes) := Nat.mul_le_mul_left _ hunit
  have heq : bytes * count = du * bytes := by omega
  refine ⟨Nat.eq_of_mul_eq_mul_left hbytes (heq.trans (Nat.mul_comm _ _)), ?_⟩
  rw [heq, Nat.mul_comm]
  omega

/-- **Where the strides agree**: with one producer, or with as many producers as units, as far as
an `int` goes. -/
theorem strides_iff (hbytes : 1 ≤ bytes) (hdu : 1 ≤ du) (hcount : 1 ≤ count) :
    (∀ k < count, asInt (bytes * count * k) = (k * (du * bytes) : ℕ)) ↔
      count = 1 ∨ count = du ∧ bytes * count * (count - 1) < 2 ^ 31 := by
  constructor
  · intro h
    rcases hcount.eq_or_lt with rfl | hmany
    · exact Or.inl rfl
    · exact Or.inr (count_eq_of_strides hbytes hdu hmany h)
  · rintro (rfl | ⟨rfl, hfits⟩) k hk
    · obtain rfl := Nat.lt_one_iff.mp hk
      rw [Nat.mul_zero, Nat.zero_mul]
      rfl
    · have hle : bytes * count * k ≤ bytes * count * (count - 1) :=
        Nat.mul_le_mul_left _ (Nat.le_sub_one_of_lt hk)
      rw [asInt_of_lt (hle.trans_lt hfits), Nat.mul_comm, Nat.mul_comm bytes]

/-! ## The get -/

variable {P : Type} [DecidableEq P] {A : Arith} {bc : Src P} {blocks : List (List Byte)}

/-- **A get with an operator**, down to its last loop. -/
theorem answer_rOptReduce (h : Supplied bc du blocks) (hop : A.reduceOperator = some operator)
    (hsize : bc.links.length * (du * bc.dtype.bytes) < 2 ^ 64)
    (hout : optUnits operator bc.dtype.bytes bc.links.length du 0 blocks.flatten loc = some out) :
    (rOptReduce A bc loc du).answer (sent bc.links blocks) = some ((0, out), []) := by
  have hone : du * bc.dtype.bytes ≤ bc.links.length * (du * bc.dtype.bytes) :=
    Nat.le_mul_of_pos_left _ (List.length_pos_iff.mpr h.producer)
  have hbuffer : sizeMul (du * bc.dtype.bytes) bc.links.length =
      bc.links.length * (du * bc.dtype.bytes) := sizeMul_units hsize
  have hread := answer_readEach [] [] h.length h.units
    (List.length_replicate (n := bc.links.length * (du * bc.dtype.bytes)) (a := (0 : Byte)))
  rw [rOptReduce, sizeMul_units (by omega), hbuffer]
  refine (answer_bind_of (answer_requestAll du bc.links _) _).trans ?_
  refine (answer_bind_of (by simpa using hread) _).trans ?_
  refine (answer_bind_of (answer_ofOption hop _) _).trans ?_
  exact answer_bind_of (answer_ofOption hout _) _

/-- The operands of all calls are where the first one's are. -/
theorem operands_iff {count : ℕ} (hmany : calls.length = du) (hdu : 1 ≤ du)
    (hcalls : ∀ i call, calls[i]? = some call →
      call.buffer = 0 + i * bytes ∧ call.offset = bytes ∧ call.count = count) :
    (∀ i call, calls[i]? = some call → ∀ k < count,
      call.operand k = ((k * (du * bytes) + i * bytes : ℕ) : ℤ)) ↔
      ∀ k < count, asInt (bytes * count * k) = (k * (du * bytes) : ℕ) := by
  have hoperand : ∀ i call, calls[i]? = some call → ∀ k,
      call.operand k = ((i * bytes : ℕ) : ℤ) + asInt (bytes * count * k) := by
    intro i call hi k
    obtain ⟨hbuffer, hoffset, hcount⟩ := hcalls i call hi
    rw [OptCall.operand, hbuffer, hoffset, hcount, Nat.zero_add]
  constructor
  · intro h k hk
    obtain ⟨call, hcall⟩ : ∃ call, calls[0]? = some call :=
      Option.isSome_iff_exists.mp (by simp; omega)
    have hfirst := (hoperand 0 call hcall k).symm.trans (h 0 call hcall k hk)
    omega
  · intro h i call hi k hk
    rw [hoperand i call hi, h k hk]
    omega

/-- **An operator never gets a get right**: the block that is freed is not the one that was
allocated.  The operands themselves are where the operator looks for them with one producer, and
with as many producers as units. -/
theorem opt_reduce_never (A : Arith) (operator : List Byte → ℕ → ℕ → List Byte)
    (hop : A.reduceOperator = some operator)
    (hkeeps : ∀ l b n, (operator l b n).length = l.length) (bc : Src P)
    (loc : List Byte) (du : ℕ) (blocks : List (List Byte)) (h : Supplied bc du blocks)
    (hdu : 1 ≤ du) (hloc : du * bc.dtype.bytes ≤ loc.length)
    (hsize : bc.links.length * (du * bc.dtype.bytes) < 2 ^ 64) :
    ∃ calls freed out,
      (rOptReduce A bc loc du).answer (sent bc.links blocks) = some ((0, out), []) ∧
      optLoop operator bc.dtype.bytes bc.links.length du 0 0 blocks.flatten loc =
        some (calls, freed, out) ∧
      ¬(SeesOperands bc.dtype.bytes blocks calls ∧ freed = 0) ∧
      ((∀ i call, calls[i]? = some call → ∀ k < bc.links.length,
        call.operand k = ((k * (du * bc.dtype.bytes) + i * bc.dtype.bytes : ℕ) : ℤ)) ↔
        bc.links.length = 1 ∨ bc.links.length = du ∧
          bc.dtype.bytes * bc.links.length * (bc.links.length - 1) < 2 ^ 31) := by
  have hbytes := bc.dtype.bytes_pos
  have hbuffer : blocks.flatten.length = bc.links.length * (du * bc.dtype.bytes) := by
    rw [h.length_flatten, h.length]
  have hone : du * bc.dtype.bytes ≤ bc.links.length * (du * bc.dtype.bytes) :=
    Nat.le_mul_of_pos_left _ (List.length_pos_iff.mpr h.producer)
  obtain ⟨calls, freed, out, hloop⟩ :=
    @exists_optLoop operator bc.dtype.bytes bc.links.length du 0 0
    blocks.flatten loc hkeeps (by omega) (by omega)
  obtain ⟨hfreed, hmany, hcalls⟩ := optLoop_calls hloop
  have hunits : optUnits operator bc.dtype.bytes bc.links.length du 0 blocks.flatten loc =
      some out := by
    rw [← List.drop_zero (l := blocks.flatten), optUnits_eq (Nat.zero_le _), hloop]
    rfl
  refine ⟨calls, freed, out, answer_rOptReduce h hop hsize hunits, hloop, ?_, ?_⟩
  · rintro ⟨-, hzero⟩
    exact absurd (Nat.mul_pos hdu hbytes) (by omega)
  · rw [← strides_iff hbytes hdu (List.length_pos_iff.mpr h.producer),
      operands_iff hmany hdu hcalls]

/-- A producer of two `int`s, and an operator that leaves the buffer alone. -/
theorem opt_reduce_never_one : ∃ calls freed out,
    optLoop (fun l _ _ => l) 4 1 2 0 0 [1, 0, 0, 0, 2, 0, 0, 0] [0, 0, 0, 0, 0, 0, 0, 0] =
      some (calls, freed, out) ∧
    ¬(SeesOperands 4 [[1, 0, 0, 0, 2, 0, 0, 0]] calls ∧ freed = 0) := by
  obtain ⟨calls, freed, out, -, hloop, hnever, -⟩ := opt_reduce_never
    ⟨noArith.floats, some fun l _ _ => l⟩ (fun l _ _ => l) rfl (fun _ _ _ => rfl)
    (⟨.reduceOpt, [(1, 0)], .int⟩ : Src ℕ) [0, 0, 0, 0, 0, 0, 0, 0] 2
    [[1, 0, 0, 0, 2, 0, 0, 0]] ⟨by decide, rfl, by decide⟩ (by decide) (by decide) (by decide)
  exact ⟨calls, freed, out, hloop, hnever⟩

/-- **Two producers of one `int` each**: the operator looks for the second operand behind the
buffer, and what is freed is not the buffer. -/
theorem operand_outside : ∃ call,
    optLoop (fun l _ _ => l) 4 2 1 0 0 [1, 0, 0, 0, 2, 0, 0, 0] [0, 0, 0, 0] =
      some ([call], 4, [1, 0, 0, 0]) ∧
    call.reads 1 = none ∧ unit 4 0 [2, 0, 0, 0] = [2, 0, 0, 0] ∧
    ¬SeesOperands 4 [[1, 0, 0, 0], [2, 0, 0, 0]] [call] := by
  have hreads : OptCall.reads ⟨0, 4, 2, [1, 0, 0, 0, 2, 0, 0, 0]⟩ 1 = none := by
    unfold OptCall.reads OptCall.operand asInt
    decide
  refine ⟨⟨0, 4, 2, [1, 0, 0, 0, 2, 0, 0, 0]⟩, rfl, hreads, rfl, fun h => ?_⟩
  have hsecond := h 0 _ rfl 1 _ rfl
  rw [hreads] at hsecond
  cases hsecond

end Libdsys
