import Libdsys.Branch.Integer
import Libdsys.Machinery.Codec
import Mathlib.Data.Int.Order.Basic

/-!
# Programs/Values — what programs send

The values of `int` and of the other types, and the bytes that hold them.
-/

open Machinery

namespace Libdsys

/-- `int`. -/
@[ext]
structure CInt where
  val : ℤ
  le_val : -2 ^ 31 ≤ val
  val_lt : val < 2 ^ 31
deriving DecidableEq

namespace CInt

instance : LinearOrder CInt := @LinearOrder.lift' CInt ℤ Int.instLinearOrder val fun _ _ => CInt.ext

instance : Zero CInt := ⟨⟨0, by decide, by decide⟩⟩

theorem lt_def {x y : CInt} : x < y ↔ x.val < y.val := Iff.rfl

theorem le_def {x y : CInt} : x ≤ y ↔ x.val ≤ y.val := Iff.rfl

/-- The number with some bits. -/
def ofBits (x : ℕ) : CInt where
  val := if x % 2 ^ 32 < 2 ^ 31 then (x % 2 ^ 32 : ℕ) else (x % 2 ^ 32 : ℕ) - 2 ^ 32
  le_val := by split <;> omega
  val_lt := by
    have hlt := Nat.mod_lt x (y := 2 ^ 32) (by omega)
    split <;> omega

theorem ofBits_emod (v : CInt) : ofBits (v.val % 2 ^ 32).toNat = v := by
  obtain ⟨v, hle, hlt⟩ := v
  refine CInt.ext ?_
  dsimp only [ofBits]
  split <;> omega

/-- The number that is left of an integer. -/
def ofInt (x : ℤ) : CInt := ofBits (x % 2 ^ 32).toNat

theorem ofInt_emod (x : ℤ) : (ofInt x).val % 2 ^ 32 = x % 2 ^ 32 := by
  dsimp only [ofInt, ofBits]
  split <;> omega

theorem ofInt_congr {x y : ℤ} (h : x % 2 ^ 32 = y % 2 ^ 32) : ofInt x = ofInt y := by
  rw [ofInt, ofInt, h]

/-- Sums and products go round. -/
instance : Add CInt := ⟨fun x y => ofInt (x.val + y.val)⟩

instance : Mul CInt := ⟨fun x y => ofInt (x.val * y.val)⟩

theorem ofInt_zero : ofInt 0 = 0 := rfl

theorem ofInt_add_ofInt (x y : ℤ) : ofInt x + ofInt y = ofInt (x + y) := by
  refine ofInt_congr ?_
  rw [Int.add_emod, ofInt_emod, ofInt_emod, ← Int.add_emod]

theorem mul_eq_ofInt (x y : CInt) : x * y = ofInt (x.val * y.val) := rfl

theorem ofBits_mod (x : ℕ) : ofBits (x % 2 ^ 32) = ofBits x := by
  simp only [ofBits, Nat.mod_mod]

end CInt

/-- An `int` is four bytes. -/
def intCodec : Codec CInt Byte 4 where
  encode v := toBytes 4 (v.val % 2 ^ 32).toNat
  decode bs := CInt.ofBits (ofBytes bs)
  length_encode _ := length_toBytes _ _
  decode_encode v := by
    rw [ofBytes_toBytes]
    exact (CInt.ofBits_mod _).trans (CInt.ofBits_emod v)

/-- Any eight bytes, such as those of a `double`. -/
def wordCodec : Codec (BitVec 64) Byte 8 where
  encode v := toBytes 8 v.toNat
  decode bs := BitVec.ofNat 64 (ofBytes bs)
  length_encode _ := length_toBytes _ _
  decode_encode v := by
    rw [ofBytes_toBytes, Nat.mod_eq_of_lt v.isLt, BitVec.ofNat_toNat, BitVec.setWidth_eq]

/-! ## Complex numbers -/

section Complex

variable {D : Type}

/-- The arithmetic of `double`. -/
structure DoubleArith (D : Type) where
  add : D → D → D
  sub : D → D → D
  mul : D → D → D
  div : D → D → D
  gt : D → D → Bool
  ofInt : ℤ → D

/-- That of words, which may stand for it. -/
def wordArith : DoubleArith (BitVec 64) where
  add x y := x + y
  sub x y := x - y
  mul x y := x * y
  div x y := x / y
  gt x y := x > y
  ofInt x := BitVec.ofInt 64 x

/-- `complex_t`. -/
structure Complex (D : Type) where
  real : D
  img : D

/-- It is two numbers, of eight bytes each. -/
def complexCodec (C : Codec D Byte 8) : Codec (Complex D) Byte 16 where
  encode c := C.encode c.real ++ C.encode c.img
  decode bs := ⟨C.decode (bs.take 8), C.decode (bs.drop 8)⟩
  length_encode c := by rw [List.length_append, C.length_encode, C.length_encode]
  decode_encode c := by
    rw [List.take_left' (C.length_encode _), List.drop_left' (C.length_encode _), C.decode_encode,
      C.decode_encode]

end Complex

end Libdsys
