import Libdsys.Programs.Arrays
import Libdsys.Programs.Values

/-!
# Programs/Mandelbrot — the farm of the examples

The farmer spreads rows of coordinates over its workers and collects their pixels, as often as all
of them can have a row.  The arithmetic of `double` is a parameter.

* `reaches_turn` — a turn draws a row for each of the workers.
* `mandel_ends` — all runs come through the turns, and with their rows.
* `draws_iff` — the rows that are over stay 0.
-/

open Machinery

namespace Libdsys.Mandelbrot

variable {D : Type}

/-- `cmplx_t`. -/
def cmplx : Dtype := .cust 16 (Nat.succ_pos 15)

/-! ## The program -/

section Program

variable (O : DoubleArith D) (C : Codec D Byte 8) (size pixRows pixCols numWorkers : ℕ)

/-- The loop of `calc_mandel_pixel`: `left` iterations are still allowed. -/
def countFrom : ℕ → Complex D → Complex D → ℕ
  | 0, _, _ => 0
  | left + 1, c, z =>
    let temp := O.add (O.sub (O.mul z.real z.real) (O.mul z.img z.img)) c.real
    let img := O.add (O.mul (O.mul (O.ofInt 2) z.real) z.img) c.img
    let lenSquare := O.add (O.mul temp temp) (O.mul img img)
    if O.gt lenSquare (O.ofInt 4) then 0 else countFrom left c ⟨temp, img⟩ + 1

/-- `calc_mandel_pixel`. -/
def calcMandelPixel (c : Complex D) : CInt :=
  CInt.ofInt (countFrom O 255 c ⟨O.ofInt 0, O.ofInt 0⟩)

/-- A row of coordinates. -/
def planeRow (rStep img : D) : ℕ → D → List (Complex D)
  | 0, _ => []
  | left + 1, real => ⟨real, img⟩ :: planeRow rStep img left (O.add real rStep)

/-- The rows of coordinates. -/
def planeRows (rStep iStep : D) : ℕ → D → List (Complex D)
  | 0, _ => []
  | left + 1, img => planeRow O rStep img pixCols (O.ofInt (-2)) ++
      planeRows rStep iStep left (O.add img iStep)

/-- `plane`. -/
def plane : List (Complex D) :=
  let rRange := O.sub (O.ofInt 2) (O.ofInt (-2))
  let iRange := O.sub (O.ofInt 2) (O.ofInt (-2))
  planeRows O pixCols (O.div rRange (O.ofInt pixCols)) (O.div iRange (O.ofInt pixRows)) pixRows
    (O.ofInt (-2))

/-- The loop of `farmer`: `left` turns are still to come, from turn `i` on. -/
def farm (points : List (Complex D)) : ℕ → ℕ → List CInt → Task (List CInt)
  | 0, _, result => return result
  | left + 1, i, result => do
    let offset := numWorkers * pixCols
    Task.put 0 ((complexCodec C).encodeAll (points.drop (i * offset))) pixCols
    let bytes ← Task.get 0 (intCodec.encodeAll (result.drop (i * offset))) pixCols
    let harvest := intCodec.decodeAll (result.drop (i * offset)).length bytes
    farm points left (i + 1) (result.take (i * offset) ++ harvest)

/-- The loop of `worker`. -/
def work : ℕ → List (Complex D) → Task Unit
  | 0, _ => return ()
  | left + 1, row => do
    let bytes ← Task.get 0 ((complexCodec C).encodeAll row) pixCols
    let row := (complexCodec C).decodeAll pixCols bytes
    Task.put 0 (intCodec.encodeAll (row.map (calcMandelPixel O))) pixCols
    work left row

/-- The channels of the farmer and of a worker: `WORKER_PLIST` is that of the workers. -/
def makes (rank : ℤ) : List Make :=
  if size < numWorkers + 1 then []
  else if rank = 0 then
    [.sink (workers numWorkers) cmplx pixCols .spread, .src (workers numWorkers) .int .collect]
  else if rank ∈ workers numWorkers then
    [.src [0] cmplx .pipe, .sink [0] .int pixCols .pipe]
  else []

/-- `main` up to the destruction of the channels in `farmer` and `worker`: the farmer's `result`.
`stack` is what a worker finds in the memory of its `row`. -/
def main (stack : ℤ → ℕ → Complex D) (rank : ℤ) : Task (Option (List CInt)) :=
  if size < numWorkers + 1 then return none
  else if rank = 0 then
    (farm C pixCols numWorkers (plane O pixRows pixCols) (pixRows / numWorkers) 0
      (List.replicate (pixRows * pixCols) 0)).bind fun result => return some result
  else if rank ∈ workers numWorkers then
    (work O C pixCols (pixRows / numWorkers) ((List.range pixCols).map (stack rank))).bind fun _ =>
      return none
  else return none

end Program

/-! ## The channels -/

section Channels

variable {size pixCols numWorkers : ℕ}

theorem makes_zero (hsize : numWorkers < size) : makes size pixCols numWorkers 0 =
    [.sink (workers numWorkers) cmplx pixCols .spread,
      .src (workers numWorkers) .int .collect] := by
  rw [makes, if_neg (by omega), if_pos rfl]

theorem makes_worker (hsize : numWorkers < size) {w : ℤ} (hw : w ∈ workers numWorkers) :
    makes size pixCols numWorkers w = [.src [0] cmplx .pipe, .sink [0] .int pixCols .pipe] := by
  rw [makes, if_neg (by omega), if_neg (ne_zero_of_mem_workers hw), if_pos hw]

theorem makes_other (hsize : numWorkers < size) {w : ℤ} (hw : w ∉ workers numWorkers)
    (hzero : w ≠ 0) : makes size pixCols numWorkers w = [] := by
  rw [makes, if_neg (by omega), if_neg hzero, if_neg hw]

theorem makes_small (hsize : ¬ numWorkers < size) (w : ℤ) :
    makes size pixCols numWorkers w = [] := by
  rw [makes, if_pos (by omega)]

theorem good_makes (size pixCols numWorkers : ℕ) (rank : ℤ) :
    ∀ m ∈ makes size pixCols numWorkers rank, m.Good rank := by
  intro m hm
  by_cases hsize : numWorkers < size
  · by_cases hzero : rank = 0
    · subst hzero
      have hapart : (0 : ℤ) ∉ workers numWorkers := fun h => ne_zero_of_mem_workers h rfl
      rw [makes_zero hsize] at hm
      simp only [List.mem_cons, List.not_mem_nil, or_false] at hm
      obtain rfl | rfl := hm <;>
        exact ⟨nodup_workers numWorkers, hapart, by simp [Make.Copies]⟩
    · by_cases hw : rank ∈ workers numWorkers
      · rw [makes_worker hsize hw] at hm
        simp only [List.mem_cons, List.not_mem_nil, or_false] at hm
        obtain rfl | rfl := hm <;>
          exact ⟨List.nodup_singleton _, by simpa [Make.peers] using hzero, by simp [Make.Copies]⟩
      · rw [makes_other hsize hw hzero] at hm
        cases hm
  · rw [makes_small hsize] at hm
    cases hm

/-- Coordinates go to the workers, pixels to the farmer. -/
theorem typed_makes (size pixCols numWorkers : ℕ) : Typed (makes size pixCols numWorkers) := by
  intro p q c j ch prod dtype role hc hq hj hp _
  have hc := List.mem_of_getElem? hc
  have hj := List.mem_of_getElem? hj
  by_cases hsize : numWorkers < size
  · by_cases hzero : p = 0
    · subst hzero
      rw [makes_zero hsize] at hc
      obtain rfl := List.mem_singleton.mp hc
      rw [makes_worker hsize hq] at hj
      obtain ⟨-, h⟩ := Prod.mk.inj (List.mem_singleton.mp hj)
      exact congrArg Dtype.bytes (Prod.mk.inj h).1.symm
    · by_cases hw : p ∈ workers numWorkers
      · rw [makes_worker hsize hw] at hc
        obtain rfl := List.mem_singleton.mp hc
        obtain rfl := List.mem_singleton.mp hq
        rw [makes_zero hsize] at hj
        obtain ⟨-, h⟩ := Prod.mk.inj (List.mem_singleton.mp hj)
        exact congrArg Dtype.bytes (Prod.mk.inj h).1.symm
      · rw [makes_other hsize hw hzero] at hc
        cases hc
  · rw [makes_small hsize] at hc
    cases hc

end Channels

/-! ## Turns -/

section Turns

variable {O : DoubleArith D} {C : Codec D Byte 8} {size pixCols numWorkers : ℕ}
  {A : Arith} {R : Type}

/-- The pieces of an array, one behind the other. -/
theorem flatMap_pieces {α : Type} (xs : List α) (n w : ℕ) :
    ((List.range w).flatMap fun k => (xs.drop (k * n)).take n) = xs.take (w * n) := by
  induction w with
  | zero => simp
  | succ w ih =>
    rw [List.range_succ, List.flatMap_append, ih, List.flatMap_singleton, Nat.succ_mul,
      List.take_add]

/-- Sizes that can be counted. -/
structure Fits (pixCols numWorkers : ℕ) : Prop where
  pos : 1 ≤ pixCols
  cols : pixCols < 2 ^ 31
  workers : 1 ≤ numWorkers

theorem Fits.counts (h : Fits pixCols numWorkers) {dtype : Dtype} (hbytes : dtype.bytes ≤ 16) :
    Counts dtype pixCols := counts_of_lt hbytes h.pos h.cols

/-- The row of a worker in turn `i`. -/
def rowOf (pixCols numWorkers : ℕ) (points : List (Complex D)) (i : ℕ) (w : ℤ) :
    List (Complex D) :=
  ((points.drop (i * (numWorkers * pixCols))).drop ((w.toNat - 1) * pixCols)).take pixCols

theorem length_rowOf {points : List (Complex D)} {i : ℕ}
    (hturn : (i + 1) * (numWorkers * pixCols) ≤ points.length) {w : ℤ}
    (hw : w ∈ workers numWorkers) : (rowOf pixCols numWorkers points i w).length = pixCols := by
  have hle := mem_workers.mp hw
  have hpiece : (w.toNat - 1 + 1) * pixCols ≤ numWorkers * pixCols :=
    Nat.mul_le_mul_right _ (by omega)
  rw [Nat.succ_mul] at hturn hpiece
  rw [rowOf, List.length_take, List.length_drop, List.length_drop]
  omega

/-- **What the farmer collects.** -/
theorem flatMap_rowOf (points : List (Complex D)) (i : ℕ) :
    ((workers numWorkers).flatMap fun w => (rowOf pixCols numWorkers points i w).map
      (calcMandelPixel O)) = ((points.drop (i * (numWorkers * pixCols))).take
        (numWorkers * pixCols)).map (calcMandelPixel O) := by
  rw [← flatMap_pieces, workers, List.flatMap_map, List.map_flatMap]
  refine List.flatMap_congr fun k _ => ?_
  have hk : ((k : ℤ) + 1).toNat - 1 = k := by omega
  rw [rowOf, hk]

/-- **The farmer spreads**, and every worker has its row. -/
theorem reaches_spread (hfits : Fits pixCols numWorkers) (hsize : numWorkers < size)
    {points : List (Complex D)} {i : ℕ}
    (hturn : (i + 1) * (numWorkers * pixCols) ≤ points.length) {row : ℤ → List (Complex D)}
    (hrow : ∀ w ∈ workers numWorkers, (row w).length = pixCols) (mid : Task R)
    (next : ℤ → List (Complex D) → Task R) {loc : ℤ → Task R}
    (hput : loc 0 = (Task.put 0
      ((complexCodec C).encodeAll (points.drop (i * (numWorkers * pixCols)))) pixCols).bind
        fun _ => mid)
    (hget : ∀ w ∈ workers numWorkers,
      loc w = (Task.get 0 ((complexCodec C).encodeAll (row w)) pixCols).bind fun bytes =>
        next w ((complexCodec C).decodeAll pixCols bytes)) :
    Reaches ((wired (makes size pixCols numWorkers)).exchanges A fun _ => Task.program).step
      ⟨loc, fun _ => []⟩
      ⟨fun p => if p ∈ workers numWorkers then next p (rowOf pixCols numWorkers points i p)
        else if p = 0 then mid else loc p, fun _ => []⟩ := by
  have hcounts : Counts cmplx pixCols := hfits.counts (by decide)
  have hxs : SinkChan.Takes ⟨.spread, workers numWorkers, cmplx, pixCols⟩ cmplx pixCols
      (points.drop (i * (numWorkers * pixCols))) := by
    refine ⟨rfl, hcounts, le_rfl, ?_⟩
    rw [Nat.succ_mul] at hturn
    rw [if_pos rfl, length_workers, List.length_drop]
    omega
  have hcast := reaches_cast (A := A) (C := complexCodec C) (p := 0)
    (good_makes size pixCols numWorkers) hcounts (c := 0) (by rw [makes_zero hsize]; rfl)
    (fun h => by cases h) hxs (fun _ => 0)
    (fun w hw => by rw [makes_worker hsize hw]; exact ⟨rfl, rfl⟩) row hrow mid next loc hput hget
  convert hcast using 2
  funext p
  by_cases hp : p ∈ workers numWorkers
  · have hle := mem_workers.mp hp
    have hidx : (workers numWorkers).idxOf p = p.toNat - 1 := by
      obtain ⟨k, rfl⟩ : ∃ k : ℕ, p = (k : ℤ) + 1 := ⟨(p - 1).toNat, by omega⟩
      exact (idxOf_workers (by omega)).trans (by omega)
    have hpiece : SinkChan.piece ⟨.spread, workers numWorkers, cmplx, pixCols⟩ pixCols
        (points.drop (i * (numWorkers * pixCols))) p = rowOf pixCols numWorkers points i p := by
      rw [rowOf, ← hidx]
      rfl
    rw [if_pos hp, if_pos hp, hpiece]
  · rw [if_neg hp, if_neg hp]

/-- **The farmer collects** what the workers have drawn. -/
theorem reaches_harvest (hfits : Fits pixCols numWorkers) (hsize : numWorkers < size)
    (out : ℤ → List CInt) (hout : ∀ w ∈ workers numWorkers, (out w).length = pixCols)
    {rest : List CInt} (hrest : numWorkers * pixCols ≤ rest.length) (mid loc : ℤ → Task R)
    (next : List CInt → Task R)
    (hget : loc 0 = (Task.get 0 (intCodec.encodeAll rest) pixCols).bind fun bytes =>
      next (intCodec.decodeAll rest.length bytes))
    (hput : ∀ w ∈ workers numWorkers,
      loc w = (Task.put 0 (intCodec.encodeAll (out w)) pixCols).bind fun _ => mid w) :
    Reaches ((wired (makes size pixCols numWorkers)).exchanges A fun _ => Task.program).step
      ⟨loc, fun _ => []⟩
      ⟨fun p => if p = 0 then
          next ((workers numWorkers).flatMap out ++ rest.drop (numWorkers * pixCols))
        else if p ∈ workers numWorkers then mid p else loc p, fun _ => []⟩ := by
  have hcounts : Counts .int pixCols := hfits.counts (by decide)
  have hcollect := reaches_collect (A := A) (C := intCodec) (q := 0)
    (good_makes size pixCols numWorkers) hcounts (j := 0) (by rw [makes_zero hsize]; rfl) hcounts
    le_rfl (fun _ => 0) (fun w hw => by rw [makes_worker hsize hw]; rfl) (fun w _ => rfl) out hout
    (by rwa [length_workers]) mid loc next hget hput
  rwa [length_workers] at hcollect

variable (O pixCols numWorkers) in
/-- **What `i` turns have drawn.** -/
def drawn (points : List (Complex D)) (i : ℕ) : List CInt :=
  (points.take (i * (numWorkers * pixCols))).map (calcMandelPixel O) ++
    List.replicate (points.length - i * (numWorkers * pixCols)) 0

theorem length_drawn {points : List (Complex D)} {i : ℕ}
    (hi : i * (numWorkers * pixCols) ≤ points.length) :
    (drawn O pixCols numWorkers points i).length = points.length := by
  rw [drawn, List.length_append, List.length_map, List.length_take, List.length_replicate]
  omega

theorem take_drawn {points : List (Complex D)} {i : ℕ}
    (hi : i * (numWorkers * pixCols) ≤ points.length) :
    (drawn O pixCols numWorkers points i).take (i * (numWorkers * pixCols)) =
      (points.take (i * (numWorkers * pixCols))).map (calcMandelPixel O) :=
  List.take_left' (by rw [List.length_map, List.length_take_of_le hi])

theorem drop_drawn {points : List (Complex D)} {i : ℕ}
    (hi : i * (numWorkers * pixCols) ≤ points.length) :
    (drawn O pixCols numWorkers points i).drop (i * (numWorkers * pixCols)) =
      List.replicate (points.length - i * (numWorkers * pixCols)) 0 :=
  List.drop_left' (by rw [List.length_map, List.length_take_of_le hi])

/-- A turn draws the next piece. -/
theorem drawn_succ {points : List (Complex D)} {i : ℕ} : drawn O pixCols numWorkers points (i + 1) =
    (points.take (i * (numWorkers * pixCols))).map (calcMandelPixel O) ++
      (((points.drop (i * (numWorkers * pixCols))).take (numWorkers * pixCols)).map
        (calcMandelPixel O) ++ (List.replicate (points.length - i * (numWorkers * pixCols))
          (0 : CInt)).drop (numWorkers * pixCols)) := by
  rw [drawn, Nat.succ_mul, List.take_add, List.map_append, List.drop_replicate, Nat.sub_sub,
    List.append_assoc]

/-- **A turn**: all workers draw a row. -/
theorem reaches_turn (hfits : Fits pixCols numWorkers) (hsize : numWorkers < size)
    {points : List (Complex D)} {left i : ℕ}
    (hturn : (i + 1) * (numWorkers * pixCols) ≤ points.length) {row : ℤ → List (Complex D)}
    (hrow : ∀ w ∈ workers numWorkers, (row w).length = pixCols) {k₀ : List CInt → Task R}
    {k : ℤ → Task R} {loc : ℤ → Task R}
    (hfarm : loc 0 = (farm C pixCols numWorkers points (left + 1) i
      (drawn O pixCols numWorkers points i)).bind k₀)
    (hwork : ∀ w ∈ workers numWorkers,
      loc w = (work O C pixCols (left + 1) (row w)).bind fun _ => k w) :
    Reaches ((wired (makes size pixCols numWorkers)).exchanges A fun _ => Task.program).step
      ⟨loc, fun _ => []⟩
      ⟨fun p => if p = 0 then (farm C pixCols numWorkers points left (i + 1)
            (drawn O pixCols numWorkers points (i + 1))).bind k₀
          else if p ∈ workers numWorkers then
            (work O C pixCols left (rowOf pixCols numWorkers points i p)).bind fun _ => k p
          else loc p, fun _ => []⟩ := by
  have hi : i * (numWorkers * pixCols) ≤ points.length := by
    rw [Nat.succ_mul] at hturn
    omega
  set result := drawn O pixCols numWorkers points i with hresult
  set rest := result.drop (i * (numWorkers * pixCols)) with hrest
  have hlen : numWorkers * pixCols ≤ rest.length := by
    rw [hrest, hresult, List.length_drop, length_drawn hi]
    rw [Nat.succ_mul] at hturn
    omega
  let go (harvest : List CInt) : Task R := (farm C pixCols numWorkers points left (i + 1)
    (result.take (i * (numWorkers * pixCols)) ++ harvest)).bind k₀
  have hspread := reaches_spread (A := A) (C := C) hfits hsize hturn hrow
    ((Task.get 0 (intCodec.encodeAll rest) pixCols).bind fun bytes =>
      go (intCodec.decodeAll rest.length bytes))
    (fun w row => (Task.put 0 (intCodec.encodeAll (row.map (calcMandelPixel O))) pixCols).bind
      fun _ => (work O C pixCols left row).bind fun _ => k w) hfarm hwork
  have hcollect := reaches_harvest (A := A) hfits hsize
    (fun w => (rowOf pixCols numWorkers points i w).map (calcMandelPixel O))
    (fun w hw => by rw [List.length_map, length_rowOf hturn hw]) hlen
    (fun w => (work O C pixCols left (rowOf pixCols numWorkers points i w)).bind fun _ => k w)
    (fun p => if p ∈ workers numWorkers then _ else if p = 0 then _ else loc p) go
    (by rw [if_neg fun h => ne_zero_of_mem_workers h rfl, if_pos rfl]) fun w hw => if_pos hw
  refine hspread.trans ?_
  convert hcollect using 2
  funext p
  by_cases hp : p = 0
  · rw [if_pos hp, if_pos hp, flatMap_rowOf]
    simp only [go]
    rw [hrest, hresult, take_drawn hi, drop_drawn hi, drawn_succ]
  · rw [if_neg hp, if_neg hp]
    by_cases hw : p ∈ workers numWorkers
    · rw [if_pos hw, if_pos hw]
    · rw [if_neg hw, if_neg hw, if_neg hw, if_neg hp]

/-- **All turns.** -/
theorem reaches_turns (hfits : Fits pixCols numWorkers) (hsize : numWorkers < size)
    (points : List (Complex D)) (k₀ : List CInt → Task R) (k : ℤ → Task R) (left i : ℕ)
    (hturns : (i + left) * (numWorkers * pixCols) ≤ points.length) (row : ℤ → List (Complex D))
    (hrow : ∀ w ∈ workers numWorkers, (row w).length = pixCols) (loc : ℤ → Task R)
    (hfarm : loc 0 = (farm C pixCols numWorkers points left i
      (drawn O pixCols numWorkers points i)).bind k₀)
    (hwork : ∀ w ∈ workers numWorkers,
      loc w = (work O C pixCols left (row w)).bind fun _ => k w) :
    Reaches ((wired (makes size pixCols numWorkers)).exchanges A fun _ => Task.program).step
      ⟨loc, fun _ => []⟩
      ⟨fun p => if p = 0 then k₀ (drawn O pixCols numWorkers points (i + left))
          else if p ∈ workers numWorkers then k p else loc p, fun _ => []⟩ := by
  induction left generalizing i row loc with
  | zero =>
    have hsame : (fun p => if p = 0 then k₀ (drawn O pixCols numWorkers points (i + 0))
        else if p ∈ workers numWorkers then k p else loc p) = loc := by
      funext p
      split
      · next hp => rw [hp, hfarm]; rfl
      · split
        · next hw => rw [hwork p hw]; rfl
        · rfl
    rw [hsame]
    exact .refl _
  | succ left ih =>
    have hnext : (i + 1) * (numWorkers * pixCols) ≤ points.length :=
      (Nat.mul_le_mul_right _ (by omega)).trans hturns
    have hturn := reaches_turn (A := A) (O := O) (C := C) hfits hsize hnext hrow hfarm hwork
    have hrest := ih (i + 1) (by rwa [Nat.add_right_comm, Nat.add_assoc])
      (rowOf pixCols numWorkers points i) (fun w hw => length_rowOf hnext hw)
      (fun p => if p = 0 then _ else if p ∈ workers numWorkers then _ else loc p)
      (if_pos rfl) fun w hw => by rw [if_neg (ne_zero_of_mem_workers hw), if_pos hw]
    refine hturn.trans ?_
    convert hrest using 2
    funext p
    have hcount : i + 1 + left = i + (left + 1) := by omega
    rw [hcount]
    by_cases hp : p = 0
    · rw [if_pos hp, if_pos hp]
    · by_cases hw : p ∈ workers numWorkers
      · rw [if_neg hp, if_pos hw, if_neg hp, if_pos hw]
      · rw [if_neg hp, if_neg hw, if_neg hp, if_neg hw, if_neg hp, if_neg hw]

end Turns

/-! ## What is collected -/

section Collected

variable {O : DoubleArith D} {C : Codec D Byte 8} {size pixRows pixCols numWorkers : ℕ}

theorem length_planeRow (rStep img : D) (n : ℕ) (real : D) :
    (planeRow O rStep img n real).length = n := by
  induction n generalizing real with
  | zero => rfl
  | succ n ih => rw [planeRow, List.length_cons, ih]

theorem length_plane (O : DoubleArith D) (pixRows pixCols : ℕ) :
    (plane O pixRows pixCols).length = pixRows * pixCols := by
  have hrows (rStep iStep : D) (n : ℕ) (img : D) :
      (planeRows O pixCols rStep iStep n img).length = n * pixCols := by
    induction n generalizing img with
    | zero => rw [planeRows, List.length_nil, Nat.zero_mul]
    | succ n ih =>
      rw [planeRows, List.length_append, length_planeRow, ih, Nat.succ_mul, Nat.add_comm]
  exact hrows _ _ _ _

/-- **All runs of the farm come to the destruction of the channels**, and the farmer has collected
the rows of its turns there. -/
theorem mandel_ends (O : DoubleArith D) (C : Codec D Byte 8) (A : Arith)
    (fresh : Fresh ℤ) (size pixRows : ℕ) (hfits : Fits pixCols numWorkers)
    (stack : ℤ → ℕ → Complex D) :
    (wired (makes size pixCols numWorkers)).AllEnd A (fun _ => Task.program) fresh
      (main O C size pixRows pixCols numWorkers stack) fun rank =>
        .done (if rank = 0 ∧ numWorkers < size then
          some (drawn O pixCols numWorkers (plane O pixRows pixCols) (pixRows / numWorkers))
          else none) := by
  have hgood := good_makes size pixCols numWorkers
  have hreach : Reaches ((wired (makes size pixCols numWorkers)).exchanges A
      fun _ => Task.program).step ⟨main O C size pixRows pixCols numWorkers stack, fun _ => []⟩
      ⟨fun rank => .done (if rank = 0 ∧ numWorkers < size then
        some (drawn O pixCols numWorkers (plane O pixRows pixCols) (pixRows / numWorkers))
        else none), fun _ => []⟩ := by
    by_cases hsize : numWorkers < size
    · have hlen := length_plane O pixRows pixCols
      have hturns := reaches_turns (A := A) (O := O) (C := C) hfits hsize
        (plane O pixRows pixCols) (fun result => .done (some result)) (fun _ => .done none)
        (pixRows / numWorkers) 0
        (by
          rw [Nat.zero_add, hlen, ← Nat.mul_assoc]
          exact Nat.mul_le_mul_right _ (Nat.div_mul_le_self _ _))
        (fun w => (List.range pixCols).map (stack w)) (fun w _ => by simp)
        (main O C size pixRows pixCols numWorkers stack)
        (by
          rw [main, if_neg (by omega), if_pos rfl, drawn, Nat.zero_mul, List.take_zero, hlen]
          rfl)
        fun w hw => by
          rw [main, if_neg (by omega), if_neg (ne_zero_of_mem_workers hw), if_pos hw]
          rfl
      convert hturns using 2
      funext p
      rw [Nat.zero_add]
      by_cases hp : p = 0
      · rw [if_pos ⟨hp, hsize⟩, if_pos hp]
      · rw [if_neg fun h => hp h.1, if_neg hp]
        split
        · rfl
        · next hw =>
          rw [main, if_neg (by omega), if_neg hp, if_neg hw]
          rfl
    · have hsame : main O C size pixRows pixCols numWorkers stack = fun rank =>
          .done (if rank = 0 ∧ numWorkers < size then
            some (drawn O pixCols numWorkers (plane O pixRows pixCols) (pixRows / numWorkers))
            else none) := by
        funext rank
        rw [main, if_pos (by omega), if_neg fun h => hsize h.2]
        rfl
      rw [hsame]
      exact .refl _
  exact Conf.allEnd_of_exchanges fresh (ordered_wired hgood (typed_makes size pixCols numWorkers))
    (oneToOne_wired hgood) (apart_wired hgood) hreach fun q => rfl

theorem mandel_ends_seven :
    (wired (makes 8 512 7)).AllEnd noArith (fun _ => Task.program)
      ⟨fun _ _ _ _ => 0, fun _ _ _ => 0⟩
      (main wordArith wordCodec 8 512 512 7 fun _ _ => ⟨0, 0⟩) fun rank =>
        .done (if rank = 0 ∧ 7 < 8 then
          some (drawn wordArith 512 7 (plane wordArith 512 512) (512 / 7)) else none) :=
  mandel_ends wordArith wordCodec noArith ⟨fun _ _ _ _ => 0, fun _ _ _ => 0⟩ 8 512
    ⟨by decide, by decide, by decide⟩ fun _ _ => ⟨0, 0⟩

/-- The farm draws every row: all its runs come to the destruction of the channels, and the farmer
has the pixels of the whole plane there. -/
def Draws (O : DoubleArith D) (C : Codec D Byte 8) (A : Arith) (fresh : Fresh ℤ)
    (size pixRows pixCols numWorkers : ℕ) (stack : ℤ → ℕ → Complex D) : Prop :=
  ∃ out : ℤ → Option (List CInt),
    (wired (makes size pixCols numWorkers)).AllEnd A (fun _ => Task.program) fresh
      (main O C size pixRows pixCols numWorkers stack) (fun rank => .done (out rank)) ∧
    out 0 = some ((plane O pixRows pixCols).map (calcMandelPixel O))

/-- Where nothing is greater than anything, all iterations are made. -/
theorem countFrom_of_not_gt {O : DoubleArith D} (h : ∀ x y, O.gt x y = false) (n : ℕ)
    (c z : Complex D) : countFrom O n c z = n := by
  induction n generalizing z with
  | zero => rfl
  | succ n ih => simp only [countFrom, h, ih, Bool.false_eq_true, if_false]

/-- **The farm draws every row, whatever the arithmetic is, if and only if the workers divide the
rows.** -/
theorem draws_iff (C : Codec D Byte 8) (A : Arith) (fresh : Fresh ℤ) (hsize : numWorkers < size)
    (pixRows : ℕ) (hfits : Fits pixCols numWorkers) (stack : ℤ → ℕ → Complex D) :
    (∀ O, Draws O C A fresh size pixRows pixCols numWorkers stack) ↔ numWorkers ∣ pixRows := by
  constructor
  · intro hall
    by_contra hdvd
    let O : DoubleArith D := ⟨fun x _ => x, fun x _ => x, fun x _ => x, fun x _ => x,
      fun _ _ => false, fun _ => (stack 0 0).real⟩
    obtain ⟨out, hend, hout⟩ := hall O
    have hdone := Task.done.inj
      (congrFun (hend.unique (mandel_ends O C A fresh size pixRows hfits stack)) 0)
    rw [hout, if_pos ⟨rfl, hsize⟩, Option.some.injEq] at hdone
    -- a pixel of the first row that is over
    have hover : pixRows / numWorkers * numWorkers < pixRows :=
      lt_of_le_of_ne (Nat.div_mul_le_self _ _) fun h => hdvd ⟨_, h.symm.trans (Nat.mul_comm _ _)⟩
    have hlast : pixRows / numWorkers * (numWorkers * pixCols) < pixRows * pixCols := by
      rw [← Nat.mul_assoc]
      exact Nat.mul_lt_mul_of_pos_right hover hfits.pos
    have hlen := length_plane O pixRows pixCols
    have hrest := congrArg (·.drop (pixRows / numWorkers * (numWorkers * pixCols))) hdone
    simp only [drop_drawn (hlast.le.trans_eq hlen.symm)] at hrest
    have hmem : calcMandelPixel O ((plane O pixRows pixCols).get ⟨_, hlast.trans_eq hlen.symm⟩) ∈
        List.replicate ((plane O pixRows pixCols).length -
          pixRows / numWorkers * (numWorkers * pixCols)) (0 : CInt) := by
      rw [← hrest, ← List.map_drop, List.drop_eq_getElem_cons (hlast.trans_eq hlen.symm)]
      exact List.mem_cons_self
    have hblank := List.eq_of_mem_replicate hmem
    rw [calcMandelPixel, countFrom_of_not_gt fun _ _ => rfl] at hblank
    exact absurd hblank (by decide)
  · intro hdvd O
    refine ⟨_, mandel_ends O C A fresh size pixRows hfits stack, ?_⟩
    have hlen := length_plane O pixRows pixCols
    rw [if_pos ⟨rfl, hsize⟩, drawn, ← Nat.mul_assoc, Nat.div_mul_cancel hdvd, ← hlen,
      List.take_length, Nat.sub_self, List.replicate_zero, List.append_nil]

theorem draws_iff_seven : ¬ ∀ O, Draws O wordCodec noArith ⟨fun _ _ _ _ => 0, fun _ _ _ => 0⟩ 8 4096
    4096 7 fun _ _ => ⟨0, 0⟩ :=
  fun h => absurd ((draws_iff wordCodec noArith ⟨fun _ _ _ _ => 0, fun _ _ _ => 0⟩ (by decide) 4096
    ⟨by decide, by decide, by decide⟩ fun _ _ => ⟨0, 0⟩).mp h) (by decide)

end Collected

end Libdsys.Mandelbrot
