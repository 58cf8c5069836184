import Libdsys.Branch.Calls
import Libdsys.Machinery.Units

/-!
# Branch/Answer — a call that gets its answers

`Micro.answer` goes through a call that asks and reads, each read answered with what the producer
has sent.  The loops of the receive functions come down to folds over the blocks received.

* `answer_reduceEach`, `answer_readEach` — the loops over the producers.
* `operateUnits_eq`, `assignUnits_eq` — the loops over the units.
-/

open Machinery

namespace Libdsys

variable {P α β : Type} [DecidableEq P]

/-- **The call, with its reads answered** in their order — `none` where a read is of another
process or length. -/
def Micro.answer : Micro P α → List (P × List Byte) → Option (α × List (P × List Byte))
  | .done a, data => some (a, data)
  | .request _ _ next, data => next.answer data
  | .read p n next, (q, bs) :: data =>
    if q = p ∧ bs.length = n then (next bs).answer data else none
  | _, _ => none

/-- The block that each producer has sent. -/
def sent (links : List (P × ℕ)) (blocks : List (List Byte)) : List (P × List Byte) :=
  (links.map Prod.fst).zip blocks

variable {links : List (P × ℕ)} {blocks : List (List Byte)} {data : List (P × List Byte)}

theorem answer_bind (m : Micro P α) (f : α → Micro P β) (data : List (P × List Byte)) :
    (m.bind f).answer data = (m.answer data).bind fun x => (f x.1).answer x.2 := by
  induction m generalizing data with
  | done | fault | put | commit | retry | fill | poll => rfl
  | request p r next ih => exact ih data
  | read p n next ih =>
    rcases data with _ | ⟨⟨q, bs⟩, data⟩
    · rfl
    · simp only [Micro.bind, Micro.answer]
      split
      · exact ih bs data
      · rfl

/-- One call after another, where the first has its answers. -/
theorem answer_bind_of {m : Micro P α} {a : α} {data' : List (P × List Byte)}
    (h : m.answer data = some (a, data')) (f : α → Micro P β) :
    (m.bind f).answer data = (f a).answer data' := by
  rw [answer_bind, h, Option.bind_some]

theorem answer_ofOption {o : Option α} {a : α} (h : o = some a) (data : List (P × List Byte)) :
    (Micro.ofOption o).answer data = some (a, data) := by
  rw [h]
  rfl

theorem answer_readData (p : P) (bs : List Byte) (data : List (P × List Byte)) :
    (readData p bs.length).answer ((p, bs) :: data) = some (bs, data) :=
  if_pos ⟨rfl, rfl⟩

theorem answer_requestAll (du : ℕ) (links : List (P × ℕ)) (data : List (P × List Byte)) :
    (requestAll du links).answer data = some ((), data) := by
  induction links with
  | nil => rfl
  | cons x links ih => exact ih

/-- **The loop that does something with each block** is a fold over them. -/
theorem answer_reduceEach {sz : ℕ} {combine : List Byte → List Byte → Option (List Byte)}
    {loc loc' : List Byte} (hlength : links.length = blocks.length)
    (hblocks : ∀ bs ∈ blocks, bs.length = sz)
    (hfold : blocks.foldlM (fun loc temp => combine temp loc) loc = some loc') :
    (reduceEach sz combine links loc).answer (sent links blocks) = some (loc', []) := by
  induction links generalizing blocks loc with
  | nil =>
    obtain rfl : blocks = [] := List.eq_nil_of_length_eq_zero hlength.symm
    obtain rfl := Option.some.inj hfold
    rfl
  | cons x links ih =>
    obtain ⟨bs, blocks, rfl⟩ := List.exists_cons_of_length_eq_add_one hlength.symm
    rw [List.forall_mem_cons] at hblocks
    obtain ⟨rfl, hblocks⟩ := hblocks
    rw [List.foldlM_cons, Option.bind_eq_bind, Option.bind_eq_some_iff] at hfold
    obtain ⟨loc₁, hfirst, hfold⟩ := hfold
    refine (answer_bind_of (answer_readData x.1 bs _) _).trans ?_
    refine (answer_bind_of (answer_ofOption hfirst _) _).trans ?_
    exact ih (Nat.succ.inj hlength) hblocks hfold

/-- **The loop that reads the blocks** puts one behind the other. -/
theorem answer_readEach {sz : ℕ} {l : List Byte} (pre post : List Byte)
    (hlength : links.length = blocks.length)
    (hblocks : ∀ bs ∈ blocks, bs.length = sz) (hl : l.length = links.length * sz) :
    (readEach sz links pre.length (pre ++ l ++ post)).answer (sent links blocks) =
      some (pre ++ blocks.flatten ++ post, []) := by
  induction links generalizing blocks pre l with
  | nil =>
    obtain rfl : blocks = [] := List.eq_nil_of_length_eq_zero hlength.symm
    obtain rfl : l = [] := List.eq_nil_of_length_eq_zero (by simpa using hl)
    rfl
  | cons x links ih =>
    obtain ⟨bs, blocks, rfl⟩ := List.exists_cons_of_length_eq_add_one hlength.symm
    rw [List.forall_mem_cons] at hblocks
    obtain ⟨rfl, hblocks⟩ := hblocks
    rw [List.length_cons, Nat.succ_mul] at hl
    have hsplit : pre ++ l ++ post =
        pre ++ l.take bs.length ++ (l.drop bs.length ++ post) := by
      rw [List.append_assoc, List.append_assoc, ← List.append_assoc (l.take _),
        List.take_append_drop]
    have hstore : writeAt (pre ++ l ++ post) pre.length bs =
        some (pre ++ bs ++ l.drop bs.length ++ post) := by
      rw [hsplit, writeAt_within _ _ _ (List.length_take_of_le (by omega)).symm,
        ← List.append_assoc]
    refine (answer_bind_of (answer_readData x.1 bs _) _).trans ?_
    refine (answer_bind_of (answer_ofOption hstore _) _).trans ?_
    rw [← List.length_append]
    refine (ih _ (Nat.succ.inj hlength) hblocks (by rw [List.length_drop]; omega)).trans ?_
    rw [List.flatten_cons, List.append_assoc pre bs]

/-! ## The loops over the units -/

variable {A : Arith} {dtype : Dtype} {mode : VariableMode} {du : ℕ}

/-- **The loop that initialises units.** -/
theorem assignUnits_eq {value : ℕ} {x l : List Byte} (pre post : List Byte)
    (hx : bcVariableAssign A.floats dtype value = some x) (hl : l.length = du * dtype.bytes) :
    assignUnits A dtype value du pre.length (pre ++ l ++ post) =
      some (pre ++ (List.replicate du x).flatten ++ post) := by
  induction du generalizing l pre with
  | zero =>
    obtain rfl : l = [] := List.eq_nil_of_length_eq_zero (by simpa using hl)
    rfl
  | succ du ih =>
    obtain ⟨l₁, l₂, rfl, hl₁, hl₂⟩ := exists_unit hl
    have hlength := length_bcVariableAssign hx
    have hstore := writeAt_within pre l₁ (l₂ ++ post) (hlength.trans hl₁.symm)
    have hrest := ih (pre ++ x) hl₂
    rw [List.length_append, hlength] at hrest
    simp only [List.append_assoc] at hstore hrest ⊢
    simp only [assignUnits, hx, hstore, Option.bind_eq_bind, Option.bind_some, hrest,
      List.replicate_succ, List.flatten_cons, List.append_assoc]

/-- What `bc_variable_operation` leaves in `*x`, where `x` and `y` are one. -/
def operated (F : FloatOps) (dtype : Dtype) (mode : VariableMode) (y z : List Byte) : List Byte :=
  (bcVariableOperation F dtype mode y z).getD y

theorem keepsUnits_operated (F : FloatOps) (dtype : Dtype) (mode : VariableMode) :
    KeepsUnits dtype.bytes (operated F dtype mode) := by
  intro y z hy _
  rw [operated]
  rcases h : bcVariableOperation F dtype mode y z with _ | x
  · exact hy
  · exact length_bcVariableOperation h

/-- One round of the loop, whether or not there is anything to store. -/
theorem operateUnits_succ (A : Arith) (mode : VariableMode) (du : ℕ) {y z : List Byte}
    (pre post tpre tpost : List Byte) (hy : y.length = dtype.bytes) (hz : z.length = dtype.bytes) :
    operateUnits A dtype mode (tpre ++ z ++ tpost) (du + 1) pre.length tpre.length
        (pre ++ y ++ post) =
      operateUnits A dtype mode (tpre ++ z ++ tpost) du (pre.length + dtype.bytes)
        (tpre.length + dtype.bytes) (pre ++ operated A.floats dtype mode y z ++ post) := by
  have hread := readAt_within pre y post
  have htemp := readAt_within tpre z tpost
  rw [hy] at hread
  rw [hz] at htemp
  simp only [operateUnits, hread, htemp, Option.bind_eq_bind, Option.bind_some, operated]
  rcases h : bcVariableOperation A.floats dtype mode y z with _ | x
  · rfl
  · have hstore := writeAt_within pre y post ((length_bcVariableOperation h).trans hy.symm)
    simp only [hstore, Option.bind_some, Option.getD_some]

/-- **The loop that combines units.** -/
theorem operateUnits_eq (A : Arith) (mode : VariableMode) {y z : List Byte}
    (pre post tpre tpost : List Byte) (hy : y.length = du * dtype.bytes)
    (hz : z.length = du * dtype.bytes) :
    operateUnits A dtype mode (tpre ++ z ++ tpost) du pre.length tpre.length (pre ++ y ++ post) =
      some (pre ++ zipUnits dtype.bytes (operated A.floats dtype mode) du y z ++ post) := by
  induction du generalizing y z pre tpre with
  | zero =>
    obtain rfl : y = [] := List.eq_nil_of_length_eq_zero (by simpa using hy)
    rfl
  | succ du ih =>
    obtain ⟨y₁, y₂, rfl, hy₁, hy₂⟩ := exists_unit hy
    obtain ⟨z₁, z₂, rfl, hz₁, hz₂⟩ := exists_unit hz
    have hop := keepsUnits_operated A.floats dtype mode y₁ z₁ hy₁ hz₁
    have hround := operateUnits_succ A mode du pre (y₂ ++ post) tpre (z₂ ++ tpost) hy₁ hz₁
    have hrest := ih (pre ++ operated A.floats dtype mode y₁ z₁) (tpre ++ z₁) hy₂ hz₂
    rw [List.length_append, List.length_append, hop, hz₁] at hrest
    rw [zipUnits_succ hy₁ hz₁]
    simp only [List.append_assoc] at hround hrest ⊢
    exact hround.trans hrest

/-- …in a block that goes on behind its units. -/
theorem operateUnits_zero {y z : List Byte} (hy : y.length = du * dtype.bytes)
    (hz : z.length = du * dtype.bytes) (post : List Byte) :
    operateUnits A dtype mode z du 0 0 (y ++ post) =
      some (zipUnits dtype.bytes (operated A.floats dtype mode) du y z ++ post) := by
  simpa using operateUnits_eq A mode [] post [] [] hy hz

/-- **The loop over the producers and their units.** -/
theorem answer_operateEach {y : List Byte} (hlength : links.length = blocks.length)
    (hblocks : ∀ bs ∈ blocks, bs.length = du * dtype.bytes) (hy : y.length = du * dtype.bytes)
    (post : List Byte) :
    (reduceEach (du * dtype.bytes) (fun temp => operateUnits A dtype mode temp du 0 0) links
      (y ++ post)).answer (sent links blocks) =
      some (blocks.foldl (zipUnits dtype.bytes (operated A.floats dtype mode) du) y ++ post,
        []) := by
  have hkeeps := keepsUnits_operated A.floats dtype mode
  refine answer_reduceEach hlength hblocks ?_
  refine foldlM_eq_some (e := (· ++ post)) (I := fun y => y.length = du * dtype.bytes) ?_ y hy
  intro y hy z hz
  exact ⟨operateUnits_zero hy (hblocks z hz) post, length_zipUnits hkeeps hy.ge (hblocks z hz).ge⟩

end Libdsys
