import Mathlib.Algebra.Group.Nat.Defs
import Mathlib.Data.List.Basic

/-!
# Machinery/Codec — values as units of memory

A type whose values take `w` cells each, and an array of them: one behind the other.

* `Codec.decodeAll_encodeAll` — an array is what its memory says.
* `Codec.take_encodeAll` / `Codec.drop_encodeAll` — its pieces are pieces of its memory.
-/

namespace Machinery

variable {α β : Type*} {w : ℕ}

/-- The representation of the values of `α` in `w` cells of `β`. -/
structure Codec (α β : Type*) (w : ℕ) where
  encode : α → List β
  decode : List β → α
  length_encode : ∀ x, (encode x).length = w
  decode_encode : ∀ x, decode (encode x) = x

namespace Codec

variable (C : Codec α β w)

/-- An array. -/
def encodeAll (xs : List α) : List β := xs.flatMap C.encode

/-- The first `n` values of an array. -/
def decodeAll : ℕ → List β → List α
  | 0, _ => []
  | n + 1, bs => C.decode (bs.take w) :: decodeAll n (bs.drop w)

variable {C}

@[simp] theorem encodeAll_nil : C.encodeAll [] = [] := rfl

theorem encodeAll_cons (x : α) (xs : List α) :
    C.encodeAll (x :: xs) = C.encode x ++ C.encodeAll xs := rfl

theorem encodeAll_append (xs ys : List α) :
    C.encodeAll (xs ++ ys) = C.encodeAll xs ++ C.encodeAll ys := List.flatMap_append

theorem encodeAll_flatMap {ι : Type*} (is : List ι) (f : ι → List α) :
    C.encodeAll (is.flatMap f) = is.flatMap fun i => C.encodeAll (f i) := List.flatMap_assoc

@[simp] theorem length_encodeAll (xs : List α) : (C.encodeAll xs).length = xs.length * w := by
  induction xs with
  | nil => rw [encodeAll_nil, List.length_nil, List.length_nil, Nat.zero_mul]
  | cons x xs ih =>
    rw [encodeAll_cons, List.length_append, C.length_encode, ih, List.length_cons, Nat.succ_mul,
      Nat.add_comm]

/-- **An array is what its memory says.** -/
theorem decodeAll_encodeAll (xs : List α) (rest : List β) :
    C.decodeAll xs.length (C.encodeAll xs ++ rest) = xs := by
  induction xs with
  | nil => rfl
  | cons x xs ih =>
    rw [encodeAll_cons, List.append_assoc, List.length_cons, decodeAll,
      List.take_left' (C.length_encode x), List.drop_left' (C.length_encode x), C.decode_encode, ih]

theorem take_encodeAll (xs : List α) (n : ℕ) :
    (C.encodeAll xs).take (n * w) = C.encodeAll (xs.take n) := by
  induction n generalizing xs with
  | zero => simp
  | succ n ih =>
    cases xs with
    | nil => simp
    | cons x xs =>
      have hx := C.length_encode x
      rw [List.take_succ_cons, encodeAll_cons, encodeAll_cons, ← ih, Nat.succ_mul, Nat.add_comm,
        List.take_append, List.take_of_length_le (by omega), hx, Nat.add_sub_cancel_left]

theorem drop_encodeAll (xs : List α) (n : ℕ) :
    (C.encodeAll xs).drop (n * w) = C.encodeAll (xs.drop n) := by
  induction n generalizing xs with
  | zero => simp
  | succ n ih =>
    cases xs with
    | nil => simp
    | cons x xs =>
      have hx := C.length_encode x
      rw [List.drop_succ_cons, encodeAll_cons, ← ih, Nat.succ_mul, Nat.add_comm,
        List.drop_append, List.drop_of_length_le (by omega), hx, Nat.add_sub_cancel_left,
        List.nil_append]

end Codec

end Machinery
