import Libdsys.Branch.Answer
import Libdsys.Branch.Integer

/-!
# Branch/Reduce — what a reduction leaves in `local`

Each producer has sent `du` units.  The sum and the product start from units that
`bc_variable_assign` makes, the extremes from the first producer's; then every other unit goes
through `bc_variable_operation`, and the minimum and the maximum of one get are the two of two.

The two functions of `variable.c` do not have the same types: a character is assigned, and never
operated on, so that a reduction of characters leaves what it started from.

* `answer_reduce` — the units of a reduction.
* `reduces_iff` — they are the sum, the product, the maximum and the minimum, except of characters.
* `minmax_pair` — the two extremes of one get.
-/

open Machinery

namespace Libdsys

variable {P : Type} [DecidableEq P]

/-- Every producer has sent `du` units. -/
structure Supplied (bc : Src P) (du : ℕ) (blocks : List (List Byte)) : Prop where
  producer : bc.links ≠ []
  length : bc.links.length = blocks.length
  units : ∀ bs ∈ blocks, bs.length = du * bc.dtype.bytes

variable {A : Arith} {bc : Src P} {du : ℕ} {loc : List Byte} {blocks : List (List Byte)}
  {dtype : Dtype} {mode : VariableMode}

omit [DecidableEq P] in
/-- There is a first producer. -/
theorem Supplied.exists_block (h : Supplied bc du blocks) : ∃ bs rest, blocks = bs :: rest := by
  refine List.exists_cons_of_ne_nil ?_
  rintro rfl
  exact h.producer (List.eq_nil_of_length_eq_zero h.length)

omit [DecidableEq P] in
theorem Supplied.length_flatten (h : Supplied bc du blocks) :
    blocks.flatten.length = blocks.length * (du * bc.dtype.bytes) := by
  rw [List.length_flatten, List.map_congr_left h.units, List.map_const', List.sum_replicate_nat]

/-- The loop of a reduction, on the data of a producer. -/
abbrev operatedUnits (A : Arith) (dtype : Dtype) (mode : VariableMode) (du : ℕ) :
    List Byte → List Byte → List Byte :=
  zipUnits dtype.bytes (operated A.floats dtype mode) du

theorem length_initial {value : ℕ} {x : List Byte}
    (hx : bcVariableAssign A.floats dtype value = some x) :
    (List.replicate du x).flatten.length = du * dtype.bytes := by
  rw [List.length_flatten, List.map_replicate, List.sum_replicate_nat, length_bcVariableAssign hx]

/-- **A sum or a product.** -/
theorem answer_rFoldReduce {value : ℕ} {x : List Byte}
    (h : Supplied bc du blocks) (hx : bcVariableAssign A.floats bc.dtype value = some x)
    (hsize : du * bc.dtype.bytes < 2 ^ 64) (hloc : du * bc.dtype.bytes ≤ loc.length) :
    (rFoldReduce A value mode bc loc du).answer (sent bc.links blocks) =
      some ((0, blocks.foldl (operatedUnits A bc.dtype mode du) (List.replicate du x).flatten ++
        loc.drop (du * bc.dtype.bytes)), []) := by
  have hinit := assignUnits_eq (A := A) [] (loc.drop (du * bc.dtype.bytes)) hx
    (List.length_take_of_le hloc)
  rw [List.nil_append, List.take_append_drop, List.nil_append, List.length_nil] at hinit
  rw [rFoldReduce, sizeMul_units hsize]
  refine (answer_bind_of (answer_requestAll du bc.links _) _).trans ?_
  refine (answer_bind_of (answer_ofOption hinit _) _).trans ?_
  exact answer_bind_of (answer_operateEach h.length h.units (length_initial hx) _) _

/-- The first producer's block is stored as it is. -/
theorem answer_first {x : P × ℕ} {links : List (P × ℕ)} {bs : List Byte} (h : bc.links = x :: links)
    (blocks : List (List Byte)) {β : Type} (next : List Byte → Micro P β) :
    ((requestAll du bc.links).bind fun _ => (Micro.ofOption bc.links.head?).bind fun x =>
      (readData x.1 bs.length).bind next).answer (sent bc.links (bs :: blocks)) =
      (next bs).answer (sent links blocks) := by
  refine (answer_bind_of (answer_requestAll du bc.links _) _).trans ?_
  rw [h]
  exact answer_bind_of (answer_readData x.1 bs _) _

theorem writeAt_start {bs : List Byte} (h : bs.length ≤ loc.length) :
    writeAt loc 0 bs = some (bs ++ loc.drop bs.length) := by
  rw [writeAt_eq_some (by omega), overlay, List.take_zero, List.nil_append, Nat.zero_add]

/-- …and once more behind it. -/
theorem writeAt_twice {bs : List Byte} (h : 2 * bs.length ≤ loc.length) :
    writeAt (bs ++ loc.drop bs.length) bs.length bs =
      some (bs ++ bs ++ loc.drop (2 * bs.length)) := by
  have hdrop : loc.drop (2 * bs.length) = (loc.drop bs.length).drop bs.length := by
    rw [List.drop_drop, Nat.two_mul]
  have hlength : bs.length = ((loc.drop bs.length).take bs.length).length := by
    rw [List.length_take, List.length_drop]
    omega
  rw [hdrop, ← writeAt_within bs _ _ hlength, List.append_assoc, List.take_append_drop]

/-- **A maximum or a minimum.** -/
theorem answer_rSelectReduce {bs : List Byte}
    (h : Supplied bc du (bs :: blocks)) (hsize : du * bc.dtype.bytes < 2 ^ 64)
    (hloc : du * bc.dtype.bytes ≤ loc.length) :
    (rSelectReduce A mode bc loc du).answer (sent bc.links (bs :: blocks)) =
      some ((0, blocks.foldl (operatedUnits A bc.dtype mode du) bs ++
        loc.drop (du * bc.dtype.bytes)), []) := by
  obtain ⟨x, links, hlinks⟩ := List.exists_cons_of_ne_nil h.producer
  obtain ⟨hbs, hunits⟩ := List.forall_mem_cons.mp h.units
  have hlength : links.length = blocks.length := by simpa [hlinks] using h.length
  rw [rSelectReduce, sizeMul_units hsize, ← hbs]
  refine (answer_first hlinks blocks _).trans ?_
  refine (answer_bind_of (answer_ofOption (writeAt_start (hbs ▸ hloc)) _) _).trans ?_
  rw [hlinks, List.tail_cons, hbs]
  exact answer_bind_of (answer_operateEach hlength hunits hbs _) _

/-! ## The four reductions of numbers -/

/-- The role that reduces with an operation. -/
def VariableMode.role : VariableMode → Role
  | .add => .reduceSum
  | .multiply => .reduceMul
  | .max => .reduceMax
  | .min => .reduceMin

/-- The integer types of `bc_variable_assign`. -/
def Dtype.Integer : Dtype → Prop
  | .float | .double | .longDouble | .cust _ _ => False
  | _ => True

theorem Dtype.Integer.bytes_le {dtype : Dtype} (h : dtype.Integer) : dtype.bytes ≤ 8 := by
  rcases dtype <;> first | exact h.elim | decide

/-- The types that `bc_variable_operation` leaves out. -/
def Dtype.Character (dtype : Dtype) : Prop := dtype = .char ∨ dtype = .uchar

/-- Whether a type has a sign: `char` is the compiler's to decide. -/
def Dtype.signed (signedChar : Bool) : Dtype → Bool
  | .char => signedChar
  | .short | .int | .long => true
  | _ => false

/-- The number that a unit is. -/
def Dtype.value (signedChar : Bool) (dtype : Dtype) : List Byte → ℤ :=
  intValue (dtype.signed signedChar)

/-- **What a reduction of some numbers is**, in `w` bytes. -/
def VariableMode.Reduced (mode : VariableMode) (w : ℕ) (vs : List ℤ) (v : ℤ) : Prop :=
  match mode with
  | .add => v ≡ vs.sum [ZMOD 2 ^ (8 * w)]
  | .multiply => v ≡ vs.prod [ZMOD 2 ^ (8 * w)]
  | .max => IsGreatest {x | x ∈ vs} v
  | .min => IsLeast {x | x ∈ vs} v

/-- No operation on the numbers is needed: they sum up to 0 or multiply to 1, up to the width of a
character, or the first of them is the extreme. -/
def VariableMode.Idle (mode : VariableMode) (vs : List ℤ) : Prop :=
  match mode with
  | .add => vs.sum ≡ 0 [ZMOD 256]
  | .multiply => vs.prod ≡ 1 [ZMOD 256]
  | .max => ∀ x ∈ vs, x ≤ vs.headI
  | .min => ∀ x ∈ vs, vs.headI ≤ x

/-- What the operations leave of one unit of each producer. -/
def VariableMode.left (F : FloatOps) (dtype : Dtype) (mode : VariableMode)
    (us : List (List Byte)) : List Byte :=
  match mode with
  | .add => us.foldl (operated F dtype .add) (toBytes dtype.bytes 0)
  | .multiply => us.foldl (operated F dtype .multiply) (toBytes dtype.bytes 1)
  | .max => us.tail.foldl (operated F dtype .max) us.headI
  | .min => us.tail.foldl (operated F dtype .min) us.headI

theorem bcVariableAssign_integer (F : FloatOps) (h : dtype.Integer) (value : ℕ) :
    bcVariableAssign F dtype value = some (toBytes dtype.bytes value) := by
  rcases dtype <;> first | rfl | exact h.elim

theorem operated_integer (F : FloatOps) (signedChar : Bool) (h : dtype.Integer)
    (hchar : ¬ dtype.Character) : operated F dtype mode =
      intOperation dtype.bytes (dtype.signed signedChar) mode := by
  rcases dtype <;> first | rfl | exact h.elim | exact absurd (by simp [Dtype.Character]) hchar

theorem operated_character (F : FloatOps) (h : dtype.Character) (y z : List Byte) :
    operated F dtype mode y z = y := by
  rcases h with rfl | rfl <;> rfl

theorem unit_operatedUnits {y : List Byte} {j : ℕ} (hy : y.length = du * dtype.bytes)
    (hblocks : ∀ bs ∈ blocks, bs.length = du * dtype.bytes) (hj : j < du) (post : List Byte) :
    unit dtype.bytes j (blocks.foldl (operatedUnits A dtype mode du) y ++ post) =
      (blocks.map (unit dtype.bytes j)).foldl (operated A.floats dtype mode)
        (unit dtype.bytes j y) := by
  have hkeeps := keepsUnits_operated A.floats dtype mode
  have hlong : ∀ bs ∈ blocks, du * dtype.bytes ≤ bs.length := fun bs hbs => (hblocks bs hbs).ge
  rw [unit_append, unit_foldl_zipUnits hkeeps hy hlong hj]
  rw [length_foldl_zipUnits hkeeps hy hlong]
  exact succ_mul_le hj _

/-- The units of a sum or a product. -/
theorem answer_fold {value : ℕ} (h : Supplied bc du blocks) (hinteger : bc.dtype.Integer)
    (hsize : du * bc.dtype.bytes < 2 ^ 64) (hloc : du * bc.dtype.bytes ≤ loc.length) :
    ∃ out,
      (rFoldReduce A value mode bc loc du).answer (sent bc.links blocks) = some ((0, out), []) ∧
      ∀ j < du, unit bc.dtype.bytes j out = (blocks.map (unit bc.dtype.bytes j)).foldl
        (operated A.floats bc.dtype mode) (toBytes bc.dtype.bytes value) := by
  have hx := bcVariableAssign_integer A.floats hinteger value
  refine ⟨_, answer_rFoldReduce h hx hsize hloc, fun j hj => ?_⟩
  rw [unit_operatedUnits (length_initial hx) h.units hj,
    unit_flatten_replicate (length_toBytes _ _) hj]

/-- The units of an extreme. -/
theorem answer_select (h : Supplied bc du blocks) (hsize : du * bc.dtype.bytes < 2 ^ 64)
    (hloc : du * bc.dtype.bytes ≤ loc.length) :
    ∃ out, (rSelectReduce A mode bc loc du).answer (sent bc.links blocks) = some ((0, out), []) ∧
      ∀ j < du, unit bc.dtype.bytes j out = (blocks.map (unit bc.dtype.bytes j)).tail.foldl
        (operated A.floats bc.dtype mode) (blocks.map (unit bc.dtype.bytes j)).headI := by
  obtain ⟨bs, blocks, rfl⟩ := h.exists_block
  obtain ⟨hbs, hunits⟩ := List.forall_mem_cons.mp h.units
  exact ⟨_, answer_rSelectReduce h hsize hloc, fun j hj => unit_operatedUnits hbs hunits hj _⟩

/-- **The units of a reduction.** -/
theorem answer_reduce (h : Supplied bc du blocks) (hrole : bc.role = mode.role)
    (hinteger : bc.dtype.Integer) (hsize : du * bc.dtype.bytes < 2 ^ 64)
    (hloc : du * bc.dtype.bytes ≤ loc.length) :
    ∃ r out, bc.role.r A = some r ∧
      (r bc loc du).answer (sent bc.links blocks) = some ((0, out), []) ∧
      ∀ j < du, unit bc.dtype.bytes j out =
        mode.left A.floats bc.dtype (blocks.map (unit bc.dtype.bytes j)) := by
  rw [hrole]
  rcases mode with _ | _ | _ | _
  · exact ⟨_, (answer_fold h hinteger hsize hloc).imp fun _ hout => ⟨rfl, hout⟩⟩
  · exact ⟨_, (answer_fold h hinteger hsize hloc).imp fun _ hout => ⟨rfl, hout⟩⟩
  · exact ⟨_, (answer_select h hsize hloc).imp fun _ hout => ⟨rfl, hout⟩⟩
  · exact ⟨_, (answer_select h hsize hloc).imp fun _ hout => ⟨rfl, hout⟩⟩

/-- **A reduction of numbers that are operated on.** -/
theorem reduced_left (F : FloatOps) (signedChar : Bool) (hinteger : dtype.Integer)
    (hchar : ¬ dtype.Character) {us : List (List Byte)} (hne : us ≠ [])
    (hus : ∀ u ∈ us, u.length = dtype.bytes) :
    mode.Reduced dtype.bytes (us.map (dtype.value signedChar))
      (dtype.value signedChar (mode.left F dtype us)) := by
  obtain ⟨u, us, rfl⟩ := List.exists_cons_of_ne_nil hne
  obtain ⟨hu, hrest⟩ := List.forall_mem_cons.mp hus
  rcases mode with _ | _ | _ | _ <;>
    simp only [VariableMode.left, operated_integer F signedChar hinteger hchar]
  · refine (intValue_foldl_add _ _ _ _).trans ?_
    exact ((intValue_toBytes_nat _ _ 0).add_right _).trans (by rw [Nat.cast_zero, zero_add]; rfl)
  · refine (intValue_foldl_multiply _ _ _ _).trans ?_
    exact ((intValue_toBytes_nat _ _ 1).mul_right _).trans (by rw [Nat.cast_one, one_mul]; rfl)
  · rw [Dtype.value, List.tail_cons, List.headI_cons, intValue_foldl_max _ hu hrest]
    exact isGreatest_foldl_max _ _
  · rw [Dtype.value, List.tail_cons, List.headI_cons, intValue_foldl_min _ hu hrest]
    exact isLeast_foldl_min _ _

theorem foldl_operated_character (F : FloatOps) (h : dtype.Character) (us : List (List Byte))
    (y : List Byte) : us.foldl (operated F dtype mode) y = y := by
  induction us with
  | nil => rfl
  | cons u us ih => rw [List.foldl_cons, operated_character F h, ih]

/-- What a reduction of characters starts from. -/
theorem value_character (signedChar : Bool) (h : dtype.Character) :
    dtype.value signedChar (toBytes dtype.bytes 0) = 0 ∧
      dtype.value signedChar (toBytes dtype.bytes 1) = 1 := by
  rcases h with rfl | rfl <;> rcases signedChar <;> decide

/-- **A reduction of characters** is right if none of them had to be operated on. -/
theorem reduced_left_character (F : FloatOps) (signedChar : Bool) (hchar : dtype.Character)
    {us : List (List Byte)} (hne : us ≠ []) :
    mode.Reduced dtype.bytes (us.map (dtype.value signedChar))
      (dtype.value signedChar (mode.left F dtype us)) ↔
      mode.Idle (us.map (dtype.value signedChar)) := by
  obtain ⟨u, us, rfl⟩ := List.exists_cons_of_ne_nil hne
  have hwidth : (2 : ℤ) ^ (8 * dtype.bytes) = 256 := by rcases hchar with rfl | rfl <;> rfl
  obtain ⟨hzero, hone⟩ := value_character signedChar hchar
  rcases mode with _ | _ | _ | _ <;>
    simp only [VariableMode.Reduced, VariableMode.Idle, VariableMode.left,
      foldl_operated_character F hchar, hwidth, hzero, hone]
  · exact Int.modEq_comm
  · exact Int.modEq_comm
  · exact and_iff_right (by simp)
  · exact and_iff_right (by simp)

/-- **The four reductions of integers are the sum, the product, the maximum and the minimum of each
unit**, except those of characters, which are so only where no operation is needed. -/
theorem reduces_iff (A : Arith) (signedChar : Bool) (mode : VariableMode) (bc : Src P)
    (loc : List Byte) (du : ℕ) (blocks : List (List Byte)) (hrole : bc.role = mode.role)
    (hinteger : bc.dtype.Integer) (h : Supplied bc du blocks) (hdu : du < 2 ^ 32)
    (hloc : du * bc.dtype.bytes ≤ loc.length) :
    ∃ r out, bc.role.r A = some r ∧
      (r bc loc du).answer (sent bc.links blocks) = some ((0, out), []) ∧
      ((∀ j < du, mode.Reduced bc.dtype.bytes
          (blocks.map fun bs => bc.dtype.value signedChar (unit bc.dtype.bytes j bs))
          (bc.dtype.value signedChar (unit bc.dtype.bytes j out))) ↔
        ¬ bc.dtype.Character ∨ ∀ j < du, mode.Idle
          (blocks.map fun bs => bc.dtype.value signedChar (unit bc.dtype.bytes j bs))) := by
  have hbytes := hinteger.bytes_le
  have hsize : du * bc.dtype.bytes < 2 ^ 64 := by
    calc du * bc.dtype.bytes ≤ du * 8 := Nat.mul_le_mul_left _ hbytes
      _ < 2 ^ 64 := by omega
  obtain ⟨r, out, hr, hout, hunit⟩ := answer_reduce (A := A) h hrole hinteger hsize hloc
  obtain ⟨bs, rest, rfl⟩ := h.exists_block
  refine ⟨r, out, hr, hout, ?_⟩
  have hmap : ∀ j,
      ((bs :: rest).map fun bs => bc.dtype.value signedChar (unit bc.dtype.bytes j bs)) =
      ((bs :: rest).map (unit bc.dtype.bytes j)).map (bc.dtype.value signedChar) :=
    fun j => List.map_map.symm
  simp only [hmap]
  by_cases hchar : bc.dtype.Character
  · refine Iff.trans ?_ (or_iff_right (not_not.mpr hchar)).symm
    refine forall₂_congr fun j hj => ?_
    rw [hunit j hj, reduced_left_character A.floats signedChar hchar (by simp)]
  · refine iff_of_true (fun j hj => ?_) (Or.inl hchar)
    rw [hunit j hj]
    refine reduced_left A.floats signedChar hinteger hchar (by simp) fun u hu => ?_
    obtain ⟨bs, hbs, rfl⟩ := List.mem_map.mp hu
    exact length_unit ((succ_mul_le hj _).trans (h.units bs hbs).ge)

/-- Two producers of two `int`s each, which are summed up. -/
theorem reduces_iff_two : ∃ r out, Role.reduceSum.r noArith = some r ∧
    (r (⟨.reduceSum, [(1, 0), (2, 0)], .int⟩ : Src ℕ) (List.replicate 8 0) 2).answer
      [(1, [1, 0, 0, 0, 2, 0, 0, 0]), (2, [255, 255, 255, 255, 3, 0, 0, 0])] = some ((0, out), []) ∧
    ∀ j < 2, VariableMode.add.Reduced 4
      ([[1, 0, 0, 0, 2, 0, 0, 0], [255, 255, 255, 255, 3, 0, 0, 0]].map fun bs =>
        Dtype.int.value false (unit 4 j bs)) (Dtype.int.value false (unit 4 j out)) := by
  obtain ⟨r, out, hr, hout, hiff⟩ := reduces_iff noArith false .add
    (⟨.reduceSum, [(1, 0), (2, 0)], .int⟩ : Src ℕ) (List.replicate 8 0) 2
    [[1, 0, 0, 0, 2, 0, 0, 0], [255, 255, 255, 255, 3, 0, 0, 0]] rfl trivial
    ⟨by decide, rfl, by decide⟩ (by decide) (by decide)
  exact ⟨r, out, hr, hout, hiff.mpr (Or.inl (by simp [Dtype.Character]))⟩

/-- **A sum of characters**: the only producer sends 1, and the sum is 0. -/
theorem uchar_sum :
    (rSumReduce noArith (⟨.reduceSum, [(1, 0)], .uchar⟩ : Src ℕ) [5] 1).answer [(1, [1])] =
      some ((0, [0]), []) ∧
    ¬VariableMode.add.Reduced Dtype.uchar.bytes [Dtype.uchar.value false [1]]
      (Dtype.uchar.value false [0]) := by
  refine ⟨rfl, fun h => ?_⟩
  have hmod : (0 : ℤ) ≡ 1 [ZMOD 256] := h
  exact absurd hmod (by decide)

/-! ## The two extremes of one get -/

/-- One round of the loop that keeps both extremes. -/
theorem operateUnits_extremes {lo hi z : List Byte} (hlo : lo.length = du * dtype.bytes)
    (hhi : hi.length = du * dtype.bytes) (hz : z.length = du * dtype.bytes) (post : List Byte) :
    ((operateUnits A dtype .min z du 0 0 (lo ++ hi ++ post)).bind
      (operateUnits A dtype .max z du (du * dtype.bytes) 0)) =
      some (operatedUnits A dtype .min du lo z ++ operatedUnits A dtype .max du hi z ++ post) := by
  have hleast := length_zipUnits (keepsUnits_operated A.floats dtype .min) hlo.ge hz.ge
  have hgreatest := operateUnits_eq A .max (operatedUnits A dtype .min du lo z) post [] [] hhi hz
  rw [List.nil_append, List.append_nil, List.length_nil, hleast] at hgreatest
  rw [List.append_assoc, operateUnits_zero hlo hz, Option.bind_some, ← List.append_assoc, hgreatest]

/-- The loop that keeps both extremes. -/
theorem answer_extremesEach {links : List (P × ℕ)} {lo hi : List Byte}
    (hlength : links.length = blocks.length) (hblocks : ∀ bs ∈ blocks, bs.length = du * dtype.bytes)
    (hlo : lo.length = du * dtype.bytes) (hhi : hi.length = du * dtype.bytes) (post : List Byte) :
    (reduceEach (du * dtype.bytes) (fun temp loc => do
      let loc ← operateUnits A dtype .min temp du 0 0 loc
      operateUnits A dtype .max temp du (du * dtype.bytes) 0 loc) links
      (lo ++ hi ++ post)).answer (sent links blocks) =
      some (blocks.foldl (operatedUnits A dtype .min du) lo ++
        blocks.foldl (operatedUnits A dtype .max du) hi ++ post, []) := by
  have hkeeps := fun mode => keepsUnits_operated A.floats dtype mode
  refine (answer_reduceEach hlength hblocks (foldlM_eq_some
    (e := fun x : List Byte × List Byte => x.1 ++ x.2 ++ post)
    (k := fun x z => (operatedUnits A dtype .min du x.1 z, operatedUnits A dtype .max du x.2 z))
    (I := fun x => x.1.length = du * dtype.bytes ∧ x.2.length = du * dtype.bytes)
    ?_ (lo, hi) ⟨hlo, hhi⟩)).trans ?_
  · rintro ⟨lo, hi⟩ ⟨hlo, hhi⟩ z hz
    have hunits := hblocks z hz
    exact ⟨operateUnits_extremes hlo hhi hunits post,
      length_zipUnits (hkeeps _) hlo.ge hunits.ge, length_zipUnits (hkeeps _) hhi.ge hunits.ge⟩
  · rw [foldl_pair]

/-- **The minimum and the maximum of one get** are those of two, and nothing is written behind
them. -/
theorem minmax_pair (A : Arith) (bc : Src P) (loc least greatest : List Byte) (du : ℕ)
    (blocks : List (List Byte)) (h : Supplied bc du blocks)
    (hloc : 2 * (du * bc.dtype.bytes) ≤ loc.length) (hsize : loc.length < 2 ^ 64)
    (hleast : du * bc.dtype.bytes ≤ least.length)
    (hgreatest : du * bc.dtype.bytes ≤ greatest.length) :
    ∃ lo hi, lo.length = du * bc.dtype.bytes ∧ hi.length = du * bc.dtype.bytes ∧
      (rMinReduce A bc least du).answer (sent bc.links blocks) =
        some ((0, lo ++ least.drop (du * bc.dtype.bytes)), []) ∧
      (rMaxReduce A bc greatest du).answer (sent bc.links blocks) =
        some ((0, hi ++ greatest.drop (du * bc.dtype.bytes)), []) ∧
      (rMinmaxReduce A bc loc du).answer (sent bc.links blocks) =
        some ((0, lo ++ hi ++ loc.drop (2 * (du * bc.dtype.bytes))), []) := by
  obtain ⟨bs, blocks, rfl⟩ := h.exists_block
  obtain ⟨x, links, hlinks⟩ := List.exists_cons_of_ne_nil h.producer
  obtain ⟨hbs, hunits⟩ := List.forall_mem_cons.mp h.units
  have hlength : links.length = blocks.length := by simpa [hlinks] using h.length
  have hlong : ∀ bs ∈ blocks, du * bc.dtype.bytes ≤ bs.length := fun bs hbs => (hunits bs hbs).ge
  have hkept := fun mode =>
    length_foldl_zipUnits (keepsUnits_operated A.floats bc.dtype mode) hbs hlong
  refine ⟨_, _, hkept .min, hkept .max, answer_rSelectReduce h (by omega) hleast,
    answer_rSelectReduce h (by omega) hgreatest, ?_⟩
  rw [rMinmaxReduce, sizeMul_units (by omega), ← hbs]
  refine (answer_first hlinks blocks _).trans ?_
  refine (answer_bind_of (answer_ofOption (writeAt_start (by omega)) _) _).trans ?_
  refine (answer_bind_of (answer_ofOption (writeAt_twice (by omega)) _) _).trans ?_
  rw [hlinks, List.tail_cons, hbs]
  exact answer_bind_of (answer_extremesEach hlength hunits hbs hbs _) _

/-- Two producers of a `short` each, and a cell behind the two extremes. -/
theorem minmax_pair_two : ∃ lo hi,
    (rMinReduce noArith (⟨.reduceMinmax, [(1, 0), (2, 0)], .short⟩ : Src ℕ) [0, 0] 1).answer
      [(1, [5, 0]), (2, [255, 255])] = some ((0, lo), []) ∧
    (rMaxReduce noArith (⟨.reduceMinmax, [(1, 0), (2, 0)], .short⟩ : Src ℕ) [0, 0] 1).answer
      [(1, [5, 0]), (2, [255, 255])] = some ((0, hi), []) ∧
    (rMinmaxReduce noArith
        (⟨.reduceMinmax, [(1, 0), (2, 0)], .short⟩ : Src ℕ) [9, 9, 9, 9, 7] 1).answer
      [(1, [5, 0]), (2, [255, 255])] = some ((0, lo ++ hi ++ [7]), []) := by
  obtain ⟨lo, hi, -, -, hleast, hgreatest, hboth⟩ := minmax_pair noArith
    (⟨.reduceMinmax, [(1, 0), (2, 0)], .short⟩ : Src ℕ) [9, 9, 9, 9, 7] [0, 0] [0, 0] 1
    [[5, 0], [255, 255]] ⟨by decide, rfl, by decide⟩ (by decide) (by decide) (by decide) (by decide)
  refine ⟨lo ++ [], hi ++ [], hleast, hgreatest, ?_⟩
  rw [List.append_nil, List.append_nil]
  exact hboth

end Libdsys
