import Mathlib.Data.List.Rotate

/-!
# Machinery/Ring — blocks of cells, and circular windows over them

A block is a list of cells; `readAt` and `writeAt` are the bounds-checked accesses, and `none` is an
access outside the block.  `window m i n` reads `n` cells of `m` from `i` on, wrapping at the end,
and `ringWrite` writes them the same way.  Two laws carry every circular buffer:

* `window_add` — a window splits where it is cut.
* `window_ringWrite` — writing behind a window extends it, as long as the two together fit.
-/

namespace Machinery

variable {β : Type*}

/-! ## Bounds-checked accesses -/

/-- `n` cells from `off` on — `none` outside the block. -/
def readAt (m : List β) (off n : ℕ) : Option (List β) :=
  if off + n ≤ m.length then some ((m.drop off).take n) else none

/-- The block with `bs` laid over the cells from `off` on. -/
def overlay (m : List β) (off : ℕ) (bs : List β) : List β :=
  m.take off ++ bs ++ m.drop (off + bs.length)

/-- `bs` written from `off` on — `none` outside the block. -/
def writeAt (m : List β) (off : ℕ) (bs : List β) : Option (List β) :=
  if off + bs.length ≤ m.length then some (overlay m off bs) else none

theorem readAt_eq_some {m : List β} {off n : ℕ} (h : off + n ≤ m.length) :
    readAt m off n = some ((m.drop off).take n) := if_pos h

theorem length_of_readAt {m bs : List β} {off n : ℕ} (h : readAt m off n = some bs) :
    bs.length = n := by
  obtain ⟨hin, h⟩ := Option.ite_none_right_eq_some.mp h
  rw [← Option.some.inj h, List.length_take, List.length_drop]
  omega

theorem writeAt_eq_some {m : List β} {off : ℕ} {bs : List β} (h : off + bs.length ≤ m.length) :
    writeAt m off bs = some (overlay m off bs) := if_pos h

@[simp] theorem length_overlay {m : List β} {off : ℕ} {bs : List β}
    (h : off + bs.length ≤ m.length) : (overlay m off bs).length = m.length := by
  simp only [overlay, List.length_append, List.length_take, List.length_drop]
  omega

theorem getElem?_overlay {m : List β} {off : ℕ} {bs : List β} (h : off + bs.length ≤ m.length)
    (x : ℕ) : (overlay m off bs)[x]? =
      if off ≤ x ∧ x < off + bs.length then bs[x - off]? else m[x]? := by
  have hto : (m.take off).length = off := List.length_take_of_le (by omega)
  rcases lt_or_ge x off with hlt | hge
  · rw [if_neg (by omega), overlay, List.append_assoc, List.getElem?_append_left (by omega),
      List.getElem?_take_of_lt hlt]
  rcases lt_or_ge x (off + bs.length) with hin | hout
  · rw [if_pos ⟨hge, hin⟩, overlay, List.append_assoc, List.getElem?_append_right (by omega), hto,
      List.getElem?_append_left (by omega)]
  · rw [if_neg (by omega), overlay, List.getElem?_append_right
      (by rw [List.length_append]; omega), List.length_append, hto, List.getElem?_drop]
    congr 1
    omega

/-- Cells away from an overlay are read as before. -/
theorem take_drop_overlay_of_disjoint {m : List β} {off : ℕ} {bs : List β}
    (h : off + bs.length ≤ m.length) {a n : ℕ} (hd : a + n ≤ off ∨ off + bs.length ≤ a) :
    ((overlay m off bs).drop a).take n = (m.drop a).take n := by
  refine List.ext_getElem? fun x => ?_
  rw [List.getElem?_take, List.getElem?_take]
  split
  · rw [List.getElem?_drop, List.getElem?_drop, getElem?_overlay h, if_neg (by omega)]
  · rfl

/-! ## Circular windows -/

/-- **The `n` cells from `i` on, wrapping at the end of the block.** -/
def window (m : List β) (i n : ℕ) : List β := (m.rotate i).take n

@[simp] theorem window_zero (m : List β) (i : ℕ) : window m i 0 = [] := List.take_zero

theorem length_window {m : List β} {n : ℕ} (i : ℕ) (h : n ≤ m.length) :
    (window m i n).length = n := by
  rw [window, List.length_take_of_le (by rwa [List.length_rotate])]

theorem getElem?_window {m : List β} {i n j : ℕ} (hj : j < n) (h : n ≤ m.length) :
    (window m i n)[j]? = m[(i + j) % m.length]? := by
  rw [window, List.getElem?_take_of_lt hj, List.getElem?_rotate (by omega), Nat.add_comm]

/-- **A window splits where it is cut.** -/
theorem window_add (m : List β) (i a b : ℕ) (h : a + b ≤ m.length) :
    window m i (a + b) = window m i a ++ window m ((i + a) % m.length) b := by
  refine List.ext_getElem? fun j => ?_
  have hla : (window m i a).length = a := length_window i (by omega)
  rcases lt_or_ge j a with hja | hja
  · rw [getElem?_window (by omega) h, List.getElem?_append_left (by omega),
      getElem?_window hja (by omega)]
  rw [List.getElem?_append_right (by omega), hla]
  rcases lt_or_ge j (a + b) with hj | hj
  · rw [getElem?_window hj h, getElem?_window (by omega) (by omega), Nat.mod_add_mod,
      Nat.add_assoc, Nat.add_sub_cancel' hja]
  · rw [List.getElem?_eq_none (by rw [length_window i h]; exact hj),
      List.getElem?_eq_none (by rw [length_window _ (by omega)]; omega)]

/-- A window that does not reach the end of the block is a plain slice. -/
theorem window_eq_slice {m : List β} {i n : ℕ} (h : i + n ≤ m.length) :
    window m i n = (m.drop i).take n := by
  rw [window, List.rotate_eq_drop_append_take (by omega), List.take_append_of_le_length
    (by rw [List.length_drop]; omega)]

/-- A window that wraps is the tail of the block and a slice from its start. -/
theorem window_eq_slices {m : List β} {i n : ℕ} (hi : i ≤ m.length) (hn : n ≤ m.length)
    (h : m.length ≤ i + n) :
    window m i n = (m.drop i).take (m.length - i) ++ (m.drop 0).take (n - (m.length - i)) := by
  have hd : (m.drop i).length = m.length - i := List.length_drop
  have htail : ((m.drop i).take n) = (m.drop i).take (m.length - i) := by
    rw [List.take_of_length_le (by omega), List.take_of_length_le (by omega)]
  rw [window, List.rotate_eq_drop_append_take hi, List.take_append, hd, htail, List.take_take,
    min_eq_left (by omega), List.drop_zero]

/-! ## Circular writes -/

/-- **`bs` written from `i` on, wrapping at the end of the block.** -/
def ringWrite (m : List β) (i : ℕ) (bs : List β) : List β :=
  if i + bs.length ≤ m.length then overlay m i bs
  else overlay (overlay m i (bs.take (m.length - i))) 0 (bs.drop (m.length - i))

variable {m : List β} {i : ℕ} {bs : List β}

theorem length_ringWrite (hi : i ≤ m.length) (hbs : bs.length ≤ m.length) :
    (ringWrite m i bs).length = m.length := by
  rw [ringWrite]
  split
  · exact length_overlay ‹_›
  · have htake : (bs.take (m.length - i)).length = m.length - i :=
      List.length_take_of_le (by omega)
    rw [length_overlay, length_overlay (by omega)]
    rw [length_overlay (by omega), List.length_drop]
    omega

/-- The cell `j` places behind the start of a circular write. -/
theorem getElem?_ringWrite (hi : i ≤ m.length) (hbs : bs.length ≤ m.length) {j : ℕ}
    (hj : j < m.length) : (ringWrite m i bs)[(i + j) % m.length]? =
      if j < bs.length then bs[j]? else m[(i + j) % m.length]? := by
  have hmod : (i + j) % m.length = if i + j < m.length then i + j else i + j - m.length := by
    split
    · exact Nat.mod_eq_of_lt ‹_›
    · rw [Nat.mod_eq_sub_mod (by omega), Nat.mod_eq_of_lt (by omega)]
  rw [ringWrite]
  split
  case isTrue h =>
    rw [getElem?_overlay h, hmod]
    split_ifs <;> first | rfl | omega | (congr 1; omega)
  case isFalse h =>
    have htake : (bs.take (m.length - i)).length = m.length - i :=
      List.length_take_of_le (by omega)
    have hin : i + (bs.take (m.length - i)).length ≤ m.length := by omega
    have hdrop : (bs.drop (m.length - i)).length = bs.length - (m.length - i) :=
      List.length_drop
    rw [getElem?_overlay (by rw [length_overlay hin]; omega), getElem?_overlay hin, hdrop, htake,
      hmod]
    split_ifs with h1 h2 h3 <;> first
      | rfl
      | omega
      | (rw [List.getElem?_drop]; congr 1; omega)
      | (rw [List.getElem?_take_of_lt (by omega)]; congr 1; omega)

/-- **Writing right behind a window extends it by what is written**, as long as both fit. -/
theorem window_ringWrite {d k : ℕ} (h : k + bs.length ≤ m.length) (hm : 0 < m.length) :
    window (ringWrite m ((d + k) % m.length) bs) d (k + bs.length) = window m d k ++ bs := by
  have hi : (d + k) % m.length ≤ m.length := (Nat.mod_lt _ hm).le
  have hlen : (ringWrite m ((d + k) % m.length) bs).length = m.length :=
    length_ringWrite hi (by omega)
  refine List.ext_getElem? fun j => ?_
  have hlk : (window m d k).length = k := length_window d (by omega)
  rcases lt_or_ge j k with hjk | hjk
  · have hcell : (d + j) % m.length = ((d + k) % m.length + (j + m.length - k)) % m.length := by
      rw [Nat.mod_add_mod, show d + k + (j + m.length - k) = d + j + m.length by omega,
        Nat.add_mod_right]
    rw [getElem?_window (by omega) (by omega), hlen, hcell,
      getElem?_ringWrite hi (by omega) (by omega), if_neg (by omega), ← hcell,
      List.getElem?_append_left (by omega), getElem?_window hjk (by omega)]
  rcases lt_or_ge j (k + bs.length) with hj | hj
  · have hcell : (d + j) % m.length = ((d + k) % m.length + (j - k)) % m.length := by
      rw [Nat.mod_add_mod, show d + k + (j - k) = d + j by omega]
    rw [getElem?_window hj (by omega), hlen, hcell,
      getElem?_ringWrite hi (by omega) (by omega), if_pos (by omega),
      List.getElem?_append_right (by omega), hlk]
  · rw [List.getElem?_eq_none (by rw [length_window d (by omega)]; exact hj),
      List.getElem?_eq_none (by rw [List.length_append]; omega)]

end Machinery
