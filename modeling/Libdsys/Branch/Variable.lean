import Libdsys.Queue.Mc121

/-!
# Branch/Variable — data types and the arithmetic of reductions

A unit is the bytes of one value.  `bc_variable_operation` combines two of them by the type's own
arithmetic and knows nothing of characters and custom types, `bc_variable_assign` nothing of custom
types: where they do not, nothing is stored.

Integers are little endian in two's complement, and wrap; floating point is left to a parameter.
-/

namespace Libdsys

/-- `bc_dtype_t`: the predefined types, and what `bc_dtype_create` makes. -/
inductive Dtype
  | char | uchar | short | ushort | int | uint | float | long | ulong | double | longDouble
  | cust (bytes : ℕ) (pos : 0 < bytes)
deriving DecidableEq

/-- The size of a unit. -/
def Dtype.bytes : Dtype → ℕ
  | .char | .uchar => 1
  | .short | .ushort => 2
  | .int | .uint | .float => 4
  | .long | .ulong | .double => 8
  | .longDouble => 16
  | .cust bytes _ => bytes

theorem Dtype.bytes_pos (dtype : Dtype) : 0 < dtype.bytes := by
  cases dtype with
  | cust bytes pos => exact pos
  | _ => decide

/-- What `bc_variable_operation` is asked for. -/
inductive VariableMode
  | add | multiply | max | min
deriving DecidableEq

/-- The floating point operations, on the bytes of their operands. -/
structure FloatOps where
  operation : Dtype → VariableMode → List Byte → List Byte → List Byte
  assign : Dtype → ℕ → List Byte
  length_operation : ∀ dtype mode y z, (operation dtype mode y z).length = dtype.bytes
  length_assign : ∀ dtype value, (assign dtype value).length = dtype.bytes

/-! ## Integers -/

/-- The number with the given bytes, least significant first. -/
def ofBytes : List Byte → ℕ
  | [] => 0
  | b :: bs => b.toNat + 256 * ofBytes bs

/-- The last `w` bytes of a number. -/
def toBytes : ℕ → ℕ → List Byte
  | 0, _ => []
  | w + 1, x => x.toUInt8 :: toBytes w (x / 256)

/-- The value of an integer variable. -/
def intValue (signed : Bool) (bs : List Byte) : ℤ :=
  if signed ∧ 2 ^ (8 * bs.length) ≤ 2 * ofBytes bs then ofBytes bs - 2 ^ (8 * bs.length)
  else ofBytes bs

/-- `*x = *y (op) *z` on integers of `w` bytes. -/
def intOperation (w : ℕ) (signed : Bool) (mode : VariableMode) (y z : List Byte) : List Byte :=
  let a := intValue signed y
  let b := intValue signed z
  let x := match mode with
    | .add => a + b
    | .multiply => a * b
    | .max => if a > b then a else b
    | .min => if a < b then a else b
  toBytes w (x % 2 ^ (8 * w)).toNat

theorem length_toBytes (w x : ℕ) : (toBytes w x).length = w := by
  induction w generalizing x with
  | zero => rfl
  | succ w ih => exact congrArg (· + 1) (ih _)

/-! ## The two functions -/

variable (F : FloatOps)

/-- `bc_variable_operation`: what is stored in `*x`, `none` where nothing is. -/
def bcVariableOperation (dtype : Dtype) (mode : VariableMode) (y z : List Byte) :
    Option (List Byte) :=
  match dtype with
  | .int => some (intOperation 4 true mode y z)
  | .float => some (F.operation .float mode y z)
  | .double => some (F.operation .double mode y z)
  | .long => some (intOperation 8 true mode y z)
  | .longDouble => some (F.operation .longDouble mode y z)
  | .short => some (intOperation 2 true mode y z)
  | .ushort => some (intOperation 2 false mode y z)
  | .uint => some (intOperation 4 false mode y z)
  | .ulong => some (intOperation 8 false mode y z)
  | .char | .uchar | .cust _ _ => none

/-- `bc_variable_assign` of a small natural number: what is stored in `*var`. -/
def bcVariableAssign (dtype : Dtype) (value : ℕ) : Option (List Byte) :=
  match dtype with
  | .int | .char | .long | .short | .uchar | .ushort | .uint | .ulong =>
    some (toBytes dtype.bytes value)
  | .float | .double | .longDouble => some (F.assign dtype value)
  | .cust _ _ => none

variable {F} {dtype : Dtype}

/-- What an operation stores is a unit. -/
theorem length_bcVariableOperation {mode : VariableMode} {y z x : List Byte}
    (h : bcVariableOperation F dtype mode y z = some x) : x.length = dtype.bytes := by
  cases dtype <;> simp only [bcVariableOperation, reduceCtorEq, Option.some.injEq] at h <;>
    subst h <;> first | exact length_toBytes _ _ | exact F.length_operation _ _ _ _

/-- What an assignment stores is a unit. -/
theorem length_bcVariableAssign {value : ℕ} {x : List Byte}
    (h : bcVariableAssign F dtype value = some x) : x.length = dtype.bytes := by
  cases dtype <;> simp only [bcVariableAssign, reduceCtorEq, Option.some.injEq] at h <;>
    subst h <;> first | exact length_toBytes _ _ | exact F.length_assign _ _

end Libdsys
