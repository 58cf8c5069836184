import Mathlib.Data.List.Basic
import Mathlib.Algebra.Order.Group.Unbundled.Int
import Mathlib.Order.Lattice.Nat

/-!
# Machinery/Layout — structures laid out in memory

Memory is a cell for every address.  A structure has its fields in order, each at the next address
that its alignment divides, and is as large as a multiple of the largest alignment in it.

    `struct { char c; int i; }`   `CType.struct [.scalar 1, .scalar 4]`

* `loadFields_storeFields` — the fields stored are the fields loaded, whatever is between them.
* `loadFields_congr` — they are in the cells of the structure.
-/

namespace Machinery

variable {β : Type*}

/-- A cell for every address. -/
abbrev Memory (β : Type*) := ℤ → β

/-! ## Blocks of cells -/

/-- The `n` cells at `a`. -/
def Memory.read (m : Memory β) (a : ℤ) (n : ℕ) : List β := (List.range n).map fun i : ℕ => m (a + i)

/-- Memory with `bs` at `a`. -/
def Memory.write (m : Memory β) (a : ℤ) (bs : List β) : Memory β := fun c =>
  if a ≤ c then bs[(c - a).toNat]?.getD (m c) else m c

variable {m m' : Memory β} {a : ℤ} {n : ℕ} {bs : List β}

@[simp] theorem Memory.length_read (m : Memory β) (a : ℤ) (n : ℕ) : (m.read a n).length = n := by
  rw [read, List.length_map, List.length_range]

theorem Memory.read_congr (h : ∀ c, a ≤ c → c < a + n → m c = m' c) : m.read a n = m'.read a n := by
  refine List.map_congr_left fun i hi => h _ (by omega) ?_
  have hlt := List.mem_range.mp hi
  omega

theorem Memory.eq_of_read_eq (h : m.read a n = m'.read a n) {c : ℤ} (hge : a ≤ c)
    (hlt : c < a + n) : m c = m' c := by
  have hcell := List.map_inj_left.mp h (c - a).toNat (List.mem_range.mpr (by omega))
  rwa [Int.toNat_of_nonneg (by omega), add_sub_cancel] at hcell

theorem Memory.read_add (m : Memory β) (a : ℤ) (n k : ℕ) :
    m.read a (n + k) = m.read a n ++ m.read (a + n) k := by
  simp only [read, List.range_add, List.map_append, List.map_map, Function.comp_def,
    Int.natCast_add, Int.add_assoc]

theorem Memory.write_of_lt {c : ℤ} (h : c < a) : m.write a bs c = m c := if_neg (by omega)

/-- **What is written is read**, and nothing else is changed. -/
theorem Memory.read_write_self (m : Memory β) (a : ℤ) (bs : List β) :
    (m.write a bs).read a bs.length = bs := by
  refine List.ext_getElem (length_read _ _ _) fun i hi hbs => ?_
  have hcell : ((m.write a bs).read a bs.length)[i] = m.write a bs (a + i) := by simp [read]
  rw [hcell, write, if_pos (by omega), show (a + i - a).toNat = i by omega,
    List.getElem?_eq_getElem hbs, Option.getD_some]

theorem Memory.read_write_before {c : ℤ} (h : c + n ≤ a) :
    (m.write a bs).read c n = m.read c n :=
  read_congr fun _ _ hlt => write_of_lt (by omega)

@[simp] theorem Memory.write_nil (m : Memory β) (a : ℤ) : m.write a [] = m := by
  funext c
  simp [write]

/-- **Two writes, the second behind the first, are one.** -/
theorem Memory.write_append (m : Memory β) (a : ℤ) (bs cs : List β) :
    (m.write a bs).write (a + bs.length) cs = m.write a (bs ++ cs) := by
  funext c
  rw [write, write, write]
  by_cases hge : a + bs.length ≤ c
  · have hindex : (c - (a + bs.length)).toNat = (c - a).toNat - bs.length := by omega
    have hbehind : bs.length ≤ (c - a).toNat := by omega
    rw [if_pos hge, if_pos (by omega), if_pos (by omega), List.getElem?_append_right hbehind,
      List.getElem?_eq_none hbehind, Option.getD_none, hindex]
  · rw [if_neg hge]
    by_cases hin : a ≤ c
    · rw [if_pos hin, if_pos hin, List.getElem?_append_left (by omega)]
    · rw [if_neg hin, if_neg hin]

/-! ## Types -/

/-- The next multiple of `a`. -/
def roundUp (a pos : ℕ) : ℕ := (pos + a - 1) / a * a

theorem le_roundUp {a : ℕ} (h : 0 < a) (pos : ℕ) : pos ≤ roundUp a pos := by
  have hmod := Nat.mod_lt (pos + a - 1) h
  have hdiv := Nat.div_add_mod' (pos + a - 1) a
  rw [roundUp]
  omega

/-- A type: how many cells it takes, and what its addresses are multiples of. -/
structure CType where
  size : ℕ
  align : ℕ
  align_pos : 0 < align

namespace CType

/-- A scalar of `n + 1` cells, aligned naturally. -/
def scalar (n : ℕ) (h : 0 < n := by decide) : CType := ⟨n, n, h⟩

/-- Where a field of a type begins that comes behind `pos` cells. -/
def start (t : CType) (pos : ℕ) : ℕ := roundUp t.align pos

/-- Where fields end that come behind `pos` cells. -/
def stop : ℕ → List CType → ℕ
  | pos, [] => pos
  | pos, t :: ts => stop (t.start pos + t.size) ts

/-- The largest alignment. -/
def aligns (ts : List CType) : ℕ := ts.foldr (fun t a => max t.align a) 1

theorem aligns_pos (ts : List CType) : 0 < aligns ts := by
  induction ts with
  | nil => exact Nat.one_pos
  | cons t ts ih => exact lt_max_of_lt_right ih

/-- `struct`. -/
def struct (ts : List CType) : CType := ⟨roundUp (aligns ts) (stop 0 ts), aligns ts, aligns_pos ts⟩

/-- Where the `i`-th field begins, of those that come behind `pos` cells. -/
def offset : ℕ → List CType → ℕ → ℕ
  | pos, [], _ => pos
  | pos, t :: _, 0 => t.start pos
  | pos, t :: ts, i + 1 => offset (t.start pos + t.size) ts i

variable {t : CType} {ts : List CType} {pos : ℕ}

theorem le_start (t : CType) (pos : ℕ) : pos ≤ t.start pos := le_roundUp t.align_pos pos

theorem le_stop (pos : ℕ) (ts : List CType) : pos ≤ stop pos ts := by
  induction ts generalizing pos with
  | nil => exact Nat.le_refl pos
  | cons t ts ih =>
    have hle := ih (t.start pos + t.size)
    have hstart := t.le_start pos
    rw [stop]
    omega

theorem stop_le_struct (ts : List CType) : stop 0 ts ≤ (struct ts).size :=
  le_roundUp (aligns_pos ts) _

end CType

/-! ## Structures in memory -/

open CType

/-- The fields of a structure at `base`, those that come behind `pos` cells. -/
def loadFields (m : Memory β) (base : ℤ) : ℕ → List CType → List (List β)
  | _, [] => []
  | pos, t :: ts =>
    m.read (base + t.start pos) t.size :: loadFields m base (t.start pos + t.size) ts

/-- The fields of a structure are assigned, those that come behind `pos` cells. -/
def storeFields (base : ℤ) : ℕ → List (CType × List β) → Memory β → Memory β
  | _, [], m => m
  | pos, (t, bs) :: fs, m =>
    storeFields base (t.start pos + t.size) fs (m.write (base + t.start pos) bs)

variable {base : ℤ} {pos : ℕ} {ts : List CType} {fs : List (CType × List β)}

/-- **They are in the cells of the structure.** -/
theorem loadFields_congr (h : ∀ c, base + pos ≤ c → c < base + stop pos ts → m c = m' c) :
    loadFields m base pos ts = loadFields m' base pos ts := by
  induction ts generalizing pos with
  | nil => rfl
  | cons t ts ih =>
    have hstart := t.le_start pos
    have hstop := le_stop (t.start pos + t.size) ts
    rw [stop] at h
    rw [loadFields, loadFields, ih fun c hge hlt => h c (by omega) hlt,
      Memory.read_congr fun c hge hlt => h c (by omega) (by omega)]

/-- What is before the fields is left alone. -/
theorem read_storeFields {c : ℤ} (h : c + n ≤ base + pos) :
    (storeFields base pos fs m).read c n = m.read c n := by
  induction fs generalizing pos m with
  | nil => rfl
  | cons f fs ih =>
    obtain ⟨t, bs⟩ := f
    have hstart := t.le_start pos
    rw [storeFields, ih (by omega), Memory.read_write_before (by omega)]

/-- **The fields stored are the fields loaded.** -/
theorem loadFields_storeFields (h : ∀ f ∈ fs, f.2.length = f.1.size) :
    loadFields (storeFields base pos fs m) base pos (fs.map Prod.fst) = fs.map Prod.snd := by
  induction fs generalizing pos m with
  | nil => rfl
  | cons f fs ih =>
    obtain ⟨t, bs⟩ := f
    have hbs : bs.length = t.size := h (t, bs) List.mem_cons_self
    rw [storeFields, List.map_cons, loadFields, ih fun f hf => h f (List.mem_cons_of_mem _ hf),
      List.map_cons, read_storeFields (by dsimp only; omega)]
    rw [← hbs, Memory.read_write_self]

end Machinery
