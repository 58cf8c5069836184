import Libdsys.Branch.PlistValid

/-!
# Branch/PlistSet — what `bc_plist_set` tells its caller

One `int` is the number of entries that are still empty, success, and an error code.  A store in an
empty entry returns that number, which may be an error code; a store that is refused because others
use the list returns success; and the entry behind the last is not refused.

* `PlistCell.tells_iff` — the calls whose answer is true.
* `told_iff` — and the sequences of calls.
-/

open Machinery

namespace Libdsys

/-- `BC_EIPLIST`. -/
def bcEiplist : ℤ := 16

/-- A call of `bc_plist_set`, and how many use the list at that time. -/
structure SetCall where
  rc : ℤ
  loc : ℤ
  value : ℕ
deriving Repr, DecidableEq

namespace PlistCell

variable {r : PlistCell} {a : SetCall}

/-- `bc_plist_set`, and whether it came to a store. -/
def setStored (r : PlistCell) (loc value : ℤ) : Option (ℤ × PlistCell × Bool) :=
  if loc > r.pl.plist.length then some (bcEival, r, false)
  else if loc < 0 then none
  else do
    let entry ← r.pl.plist[loc.toNat]?
    if entry = -1 then
      let valid := intAdd r.pl.valid (-1)
      some (valid, { r with pl := ⟨r.pl.plist.set loc.toNat value, valid⟩ }, true)
    else if r.rc > 1 then some (0, r, false)
    else some (0, { r with pl := ⟨r.pl.plist.set loc.toNat value, r.pl.valid⟩ }, true)

theorem map_setStored (r : PlistCell) (loc value : ℤ) :
    (r.setStored loc value).map (fun x => (x.1, x.2.1)) = r.set loc value := by
  rw [setStored, set]
  split
  · rfl
  split
  · rfl
  rcases r.pl.plist[loc.toNat]? with _ | entry
  · rfl
  · simp only [Option.bind_eq_bind, Option.bind_some]
    split
    · rfl
    split <;> rfl

/-- What a call does and returns. -/
def answer (r : PlistCell) (a : SetCall) : Option (ℤ × PlistCell × Bool) :=
  { r with rc := a.rc }.setStored a.loc a.value

/-- **The answer of a call is true**: it is an error code exactly if nothing was stored, and outside
the entries there is an error code, and the list is unchanged. -/
def tells (r : PlistCell) (a : SetCall) : Bool :=
  (r.answer a).any fun (code, r', stored) =>
    if 0 ≤ a.loc ∧ a.loc < r.pl.plist.length then
      (code = bcEiplist ∨ code = bcEival) ↔ stored = false
    else (code = bcEiplist ∨ code = bcEival) ∧ r'.pl = r.pl

/-- **Nothing gets in the way of the answer**: the location is past the count; or it is an entry
that is filled in, and nobody else uses the list; or it is an empty one, and there are neither 16
nor 17 of them. -/
def honest (r : PlistCell) (a : SetCall) : Bool :=
  a.loc > r.pl.plist.length ∨ (0 ≤ a.loc ∧ a.loc < r.pl.plist.length) ∧
    if r.pl.plist[a.loc.toNat]? = some (-1) then
      r.pl.plist.count (-1) ≠ 16 ∧ r.pl.plist.count (-1) ≠ 17
    else a.rc ≤ 1

/-- A call on an entry. -/
theorem answer_of_lt {i : ℕ} (hi : i < r.pl.plist.length) (hloc : a.loc = i) : r.answer a =
    if r.pl.plist[i] = -1 then some (intAdd r.pl.valid (-1), { r with
      rc := a.rc, pl := ⟨r.pl.plist.set i a.value, intAdd r.pl.valid (-1)⟩ }, true)
    else if a.rc > 1 then some (0, { r with rc := a.rc }, false)
    else some (0, { r with rc := a.rc, pl := ⟨r.pl.plist.set i a.value, r.pl.valid⟩ }, true) := by
  rw [answer, setStored, hloc, if_neg (by simp; omega), if_neg (by omega), Int.toNat_natCast]
  simp only [List.getElem?_eq_getElem hi, Option.bind_eq_bind, Option.bind_some]

/-- **Which answers are true.** -/
theorem tells_iff (h : r.pl.Counted) (hlength : r.pl.plist.length < 2 ^ 31) :
    r.tells a = true ↔ r.honest a = true := by
  have hcount := List.count_le_length (a := -1) (l := r.pl.plist)
  rw [honest, decide_eq_true_iff, tells]
  rcases lt_or_ge (r.pl.plist.length : ℤ) a.loc with hlarge | hle
  · have hanswer : r.answer a = some (bcEival, { r with rc := a.rc }, false) := if_pos hlarge
    simp only [hanswer, Option.any_some]
    rw [if_neg (by omega)]
    simp [hlarge]
  rcases lt_or_ge a.loc 0 with hneg | hpos
  · have hanswer : r.answer a = none := by
      rw [answer, setStored, if_neg (not_lt.mpr hle), if_pos hneg]
    rw [hanswer, Option.any_none]
    exact iff_of_false Bool.false_ne_true (by omega)
  obtain ⟨i, hi⟩ := Int.eq_ofNat_of_zero_le hpos
  rcases Nat.lt_or_ge i r.pl.plist.length with hlt | hge
  · have hin : 0 ≤ (i : ℤ) ∧ (i : ℤ) < r.pl.plist.length := by omega
    simp only [answer_of_lt hlt hi, hi, hin, Int.toNat_natCast, List.getElem?_eq_getElem hlt,
      Option.some.injEq, and_self, if_true, true_and]
    rw [or_iff_right (by omega)]
    by_cases hempty : r.pl.plist[i] = -1
    · have hmem : 0 < r.pl.plist.count (-1) :=
        List.count_pos_iff.mpr (hempty ▸ List.getElem_mem hlt)
      have hvalid : intAdd r.pl.valid (-1) = (r.pl.plist.count (-1) : ℤ) - 1 := by
        rw [h, intAdd_of_lt] <;> omega
      simp only [if_pos hempty, hvalid, Option.any_some, bcEiplist, bcEival, Bool.true_eq_false,
        iff_false, decide_eq_true_iff]
      omega
    · rw [if_neg hempty, if_neg hempty]
      by_cases hused : a.rc > 1
      · rw [if_pos hused]
        simp [bcEiplist, bcEival, hused]
      · rw [if_neg hused]
        simp [bcEiplist, bcEival, not_lt.mp hused]
  · -- the entry behind the last
    have hanswer : r.answer a = none := by
      rw [answer, setStored, if_neg (not_lt.mpr hle), if_neg (not_lt.mpr hpos), hi,
        Int.toNat_natCast, List.getElem?_eq_none hge]
      rfl
    rw [hanswer, Option.any_none]
    exact iff_of_false Bool.false_ne_true (by omega)

/-- **What a call keeps**: the count of the entries that are empty. -/
theorem counted_answer (h : r.pl.Counted) (hlength : r.pl.plist.length < 2 ^ 31) {code : ℤ}
    {r' : PlistCell} {stored : Bool} (ha : r.answer a = some (code, r', stored)) :
    r'.pl.Counted ∧ r'.pl.plist.length < 2 ^ 31 := by
  have hset : { r with rc := a.rc }.set a.loc a.value = some (code, r') := by
    rw [← map_setStored]
    exact congrArg (Option.map fun x => (x.1, x.2.1)) ha
  rcases set_cases hset with ⟨rfl, -⟩ | ⟨i, hi, -, -, rfl⟩
  · exact ⟨h, hlength⟩
  · exact ⟨PlistHeap.counted_set h hlength hi (by omega), by rwa [List.length_set]⟩

end PlistCell

open PlistCell

/-! ## Sequences of calls -/

/-- One call: the list after it, and whether its answer was true. -/
def setStep (x : PlistCell × Bool) (a : SetCall) : Option (PlistCell × Bool) :=
  some ((x.1.answer a).elim x.1 fun y => y.2.1, x.1.tells a)

theorem exists_run_setStep (x : PlistCell × Bool) (as : List SetCall) :
    ∃ y, run setStep x as = some y := by
  induction as generalizing x with
  | nil => exact ⟨x, rfl⟩
  | cons a as ih => exact ih _

/-- **Which sequences of calls are answered truly**, on a list that starts out empty: those in which
nothing gets in the way of an answer. -/
theorem told_iff {count : ℤ} {pl : Plist} (hcount : count < 2 ^ 31)
    (hpl : bcPlistCreateEmpty count = some pl) (as : List SetCall) :
    Along setStep (fun x => x.2 = true) (fresh pl, true) as ↔
      (run (restrict (fun x a => x.1.honest a = true) setStep) (fresh pl, true) as).isSome := by
  obtain ⟨y, hrun⟩ := exists_run_setStep (fresh pl, true) as
  have hempty : pl.Counted ∧ pl.plist.length < 2 ^ 31 := by
    rw [bcPlistCreateEmpty, Option.ite_none_left_eq_some, Option.some.injEq] at hpl
    obtain ⟨hpos, rfl⟩ := hpl
    simp only [Plist.Counted, List.count_replicate_self, List.length_replicate]
    omega
  refine @along_iff _ _ setStep (fun x a => x.1.honest a = true) _
    (fun x => (x.1.pl.Counted ∧ x.1.pl.plist.length < 2 ^ 31) ∧ x.2 = true) _
    (fun _ h => h.2) (fun x a z h hok hz => ?_) (fun x a z h hno hz => ?_) _ _ as
    ⟨hempty, rfl⟩ hrun
  · obtain rfl := Option.some.inj hz
    refine ⟨?_, (tells_iff h.1.1 h.1.2).mpr hok⟩
    rcases ha : x.1.answer a with _ | ⟨code, r', stored⟩
    · exact h.1
    · exact counted_answer h.1.1 h.1.2 ha
  · obtain rfl := Option.some.inj hz
    exact mt (tells_iff h.1.1 h.1.2).mp hno

/-- A list of two is filled in, and an entry past it is refused. -/
theorem told_iff_two : Along setStep (fun x => x.2 = true) (fresh ⟨[-1, -1], 2⟩, true)
    [⟨1, 1, 5⟩, ⟨2, 0, 3⟩, ⟨1, 1, 4⟩, ⟨1, 3, 0⟩] :=
  (@told_iff 2 _ (by decide) rfl _).mpr (by decide)

/-- The first of 16 entries is stored, and 15 are left: `BC_EIVAL`. -/
theorem stored_as_error : ∃ pl, bcPlistCreateEmpty 16 = some pl ∧
    (fresh pl).answer ⟨1, 0, 3⟩ = some (bcEival,
      { fresh pl with pl := ⟨pl.plist.set 0 3, 15⟩ }, true) ∧
    ¬Along setStep (fun x => x.2 = true) (fresh pl, true) [⟨1, 0, 3⟩] := by
  refine ⟨_, rfl, rfl, fun h => ?_⟩
  have htrue : (fresh ⟨List.replicate 16 (-1), 16⟩).tells ⟨1, 0, 3⟩ = true := h.2 _ rfl
  exact absurd htrue (by decide)

/-- A store that is refused is reported as a success. -/
example : (fresh ⟨[7], 0⟩).answer ⟨2, 0, 3⟩ = some (0, { fresh ⟨[7], 0⟩ with rc := 2 }, false) :=
  rfl

/-- The entry behind the last is looked at. -/
example : (fresh ⟨[7], 0⟩).answer ⟨1, 1, 3⟩ = none := rfl

end Libdsys
