import Libdsys.Machinery.MergeSplit
import Libdsys.Programs.Arrays
import Libdsys.Programs.Values

/-!
# Programs/OddEven — the odd-even sort of the examples

Every process sorts `nlocal` numbers and has a pipe to and from each of its neighbours.  In an even
and in an odd phase it exchanges them with one, and keeps the smaller or the larger half.

* `compareAccum_eq` — the comparison keeps what a merge of both lists splits off.
-/

open Machinery

namespace Libdsys

/-! ## The program -/

namespace OddEven

/-- What a process keeps: its elements, and what it received last. -/
structure Local where
  elements : List CInt
  recv : List CInt

/-- `inc_order`. -/
def incOrder (x y : CInt) : ℤ := x.val - y.val

/-- `qsort` with `inc_order`. -/
def qsort (elements : List CInt) : List CInt :=
  elements.insertionSort fun x y => incOrder x y ≤ 0

/-- `workspace[i]`. -/
def at? (workspace : List CInt) (i : ℤ) : Option CInt :=
  if i < 0 then none else workspace[i.toNat]?

/-- The loop of `compare_accum` that keeps the small ones: `k` are still to be stored. -/
def keepSmall (workspace : List CInt) : ℕ → ℤ → ℤ → Option (List CInt)
  | 0, _, _ => some []
  | k + 1, i, j => do
    let x ← at? workspace i
    let y ← at? workspace j
    if x < y then return x :: (← keepSmall workspace k (i + 1) j)
    else return y :: (← keepSmall workspace k i (j + 1))

/-- The loop that keeps the large ones, from the end: `stored` are. -/
def keepLarge (workspace : List CInt) : ℕ → ℤ → ℤ → List CInt → Option (List CInt)
  | 0, _, _, stored => some stored
  | k + 1, i, j, stored => do
    let x ← at? workspace i
    let y ← at? workspace j
    if x ≥ y then keepLarge workspace k (i - 1) j (x :: stored)
    else keepLarge workspace k i (j - 1) (y :: stored)

/-- `compare_accum`. -/
def compareAccum (nlocal : ℕ) (st : Local) (keepsmall : Bool) : Option (List CInt) :=
  let workspace := st.elements ++ st.recv
  if keepsmall then keepSmall workspace nlocal 0 nlocal
  else keepLarge workspace nlocal (nlocal - 1) (2 * nlocal - 1) []

/-- `bc_put(sink, elements, nlocal); bc_get(src, recv_base, nlocal); compare_accum(…)`. -/
def mergeWith (nlocal chan : ℕ) (keepsmall : Bool) (st : Local) : Task Local := do
  Task.put chan (intCodec.encodeAll st.elements) nlocal
  let bytes ← Task.get chan (intCodec.encodeAll st.recv) nlocal
  let recv := intCodec.decodeAll nlocal bytes
  let elements ← Task.ofOption (compareAccum nlocal ⟨st.elements, recv⟩ keepsmall)
  return ⟨elements, recv⟩

section Program

variable (size nlocal : ℕ) (rank : ℤ)

/-- `odd_rank`. -/
def oddRank : ℤ := if rank % 2 ≠ 0 then rank - 1 else rank + 1

/-- `even_rank`. -/
def evenRank : ℤ := if rank % 2 ≠ 0 then rank + 1 else rank - 1

/-- The channels to and from the neighbours. -/
def makes : List Make :=
  if There size rank then
    (if There size (oddRank rank) then
      [.src [oddRank rank] .int .pipe, .sink [oddRank rank] .int nlocal .pipe] else []) ++
    (if There size (evenRank rank) then
      [.src [evenRank rank] .int .pipe, .sink [evenRank rank] .int nlocal .pipe] else [])
  else []

/-- The number of `even_src` and `even_sink`: those of the other neighbour are made first. -/
def evenChan : ℕ := if There size (oddRank rank) then 1 else 0

/-- A phase: nothing happens where the neighbour is not there. -/
def phase (partner : ℤ) (chan : ℕ) (st : Local) : Task Local :=
  if There size partner then mergeWith nlocal chan (rank < partner) st else return st

/-- The main loop: `i` rounds are left. -/
def mainLoop : ℕ → Local → Task Local
  | 0, st => return st
  | i + 1, st => do
    let st ← phase size nlocal rank (evenRank rank) (evenChan size rank) st
    let st ← phase size nlocal rank (oddRank rank) 0 st
    mainLoop i st

/-- What `random` is filled in with. -/
def fill (random : ℕ → ℕ → ℕ) (seed : ℕ) : List CInt :=
  (List.range nlocal).map fun i =>
    have hlt := Nat.mod_lt (random seed i) (y := 9000) (by decide)
    ⟨(random seed i % 9000 : ℕ), by omega, by omega⟩

/-- The sortings, from the `j`-th on: what each of them prints. -/
def sortings (random : ℕ → ℕ → ℕ) : ℕ → ℕ → Local → Task (List (List CInt))
  | 0, _, _ => return []
  | left + 1, j, st => do
    let elements := qsort (fill nlocal random (rank.toNat + 1 + j))
    let st ← mainLoop size nlocal rank (size / 2) ⟨elements, st.recv⟩
    let rest ← sortings random left (j + 1) st
    return st.elements :: rest

/-- `main` between the creation of the channels and their destruction: what it prints there. -/
def main (random : ℕ → ℕ → ℕ) (reps : ℕ) : Task (List (List CInt)) :=
  if There size rank then
    let zeros := List.replicate nlocal 0
    sortings size nlocal rank random reps 0 ⟨zeros, zeros⟩
  else return []

end Program

/-! ## The comparison -/

theorem qsort_eq (elements : List CInt) : qsort elements = elements.insertionSort (· ≤ ·) := by
  have hiff (x y : CInt) : incOrder x y ≤ 0 ↔ x ≤ y := by
    rw [incOrder, sub_nonpos]
    rfl
  simp only [qsort, hiff]

/-- The elements of two processes, sorted. -/
def merged (xs ys : List CInt) : List CInt := (xs ++ ys).insertionSort (· ≤ ·)

theorem merged_comm (xs ys : List CInt) : merged xs ys = merged ys xs :=
  insertionSort_congr List.perm_append_comm

theorem length_merged (xs ys : List CInt) : (merged xs ys).length = xs.length + ys.length := by
  rw [merged, List.length_insertionSort, List.length_append]

@[simp] theorem at?_natCast (workspace : List CInt) (i : ℕ) :
    at? workspace i = workspace[i]? := if_neg (Int.not_lt.mpr (Int.natCast_nonneg i))

/-- **The loop from the front** merges what is in front of it. -/
theorem keepSmall_eq (workspace : List CInt) (k i j : ℕ) : keepSmall workspace k i j =
    picks (fun x y => decide (x < y)) k (workspace.drop i) (workspace.drop j) := by
  induction k generalizing i j with
  | zero => rfl
  | succ k ih =>
    rw [keepSmall, at?_natCast, at?_natCast]
    by_cases hi : i < workspace.length
    · by_cases hj : j < workspace.length
      · rw [List.getElem?_eq_getElem hi, List.getElem?_eq_getElem hj,
          List.drop_eq_getElem_cons hi, List.drop_eq_getElem_cons hj, picks,
          ← List.drop_eq_getElem_cons hi, ← List.drop_eq_getElem_cons hj, ← ih, ← ih]
        by_cases hlt : workspace[i] < workspace[j]
        · simp [hlt, Option.map_eq_bind]
        · simp [hlt, Option.map_eq_bind]
      · rw [List.drop_eq_getElem_cons hi, List.drop_eq_nil_of_le (not_lt.mp hj),
          List.getElem?_eq_none (not_lt.mp hj), List.getElem?_eq_getElem hi]
        rfl
    · rw [List.drop_eq_nil_of_le (not_lt.mp hi), List.getElem?_eq_none (not_lt.mp hi)]
      rfl

/-- The last of some elements. -/
theorem reverse_take_succ {l : List CInt} {i : ℕ} (hi : i < l.length) :
    (l.take (i + 1)).reverse = l[i] :: (l.take i).reverse := by
  rw [List.take_succ_eq_append_getElem hi, List.reverse_append]
  rfl

/-- **The loop from the end** merges what is behind it. -/
theorem keepLarge_eq (workspace : List CInt) (k : ℕ) {i j : ℕ} (hi : i ≤ workspace.length)
    (hj : j ≤ workspace.length) (stored : List CInt) :
    keepLarge workspace k (i - 1) (j - 1) stored =
      (picks (fun x y => decide (x ≥ y)) k (workspace.take i).reverse
        (workspace.take j).reverse).map (·.reverse ++ stored) := by
  induction k generalizing i j stored with
  | zero => rfl
  | succ k ih =>
    cases i with
    | zero => rfl
    | succ i =>
      have hisub : ((i + 1 : ℕ) : ℤ) - 1 = i := by omega
      rw [keepLarge, hisub, at?_natCast, List.getElem?_eq_getElem hi, reverse_take_succ hi]
      cases j with
      | zero => rfl
      | succ j =>
        have hjsub : ((j + 1 : ℕ) : ℤ) - 1 = j := by omega
        rw [hjsub, at?_natCast, List.getElem?_eq_getElem hj, reverse_take_succ hj, picks,
          ← reverse_take_succ hi, ← reverse_take_succ hj]
        by_cases hge : workspace[i] ≥ workspace[j]
        · have hrest := ih (i := i) (j := j + 1) (by omega) hj (workspace[i] :: stored)
          rw [hjsub] at hrest
          simpa [hge, Function.comp_def] using hrest
        · have hrest := ih (i := i + 1) (j := j) hi (by omega) (workspace[j] :: stored)
          rw [hisub] at hrest
          simpa [hge, Function.comp_def] using hrest

variable {nlocal : ℕ}

/-- **The comparison keeps the smaller or the larger half** of the elements of both, in their
order, and reads nothing beyond them. -/
theorem compareAccum_eq (st : Local) (hxs : st.elements.Pairwise (· ≤ ·))
    (hys : st.recv.Pairwise (· ≤ ·))
    (hx : st.elements.length = nlocal) (hy : st.recv.length = nlocal) (keepsmall : Bool) :
    compareAccum nlocal st keepsmall = some (if keepsmall then
      (merged st.elements st.recv).take nlocal else (merged st.elements st.recv).drop nlocal) := by
  obtain ⟨xs, ys⟩ := st
  cases keepsmall with
  | true =>
    have hpicks := picks_eq (· ≤ ·) (r := fun x y : CInt => decide (x < y)) (k := nlocal)
      (fun x y h => (of_decide_eq_true h).le) (fun x y h => not_lt.mp (of_decide_eq_false h))
      ys [] hxs hys hx.ge hy.ge
    have hloop := keepSmall_eq (xs ++ ys) nlocal 0 nlocal
    rw [List.drop_zero, List.drop_left' hx] at hloop
    rw [List.append_nil] at hpicks
    exact hloop.trans hpicks
  | false =>
    have hpicks := picks_eq (· ≥ ·) (r := fun x y : CInt => decide (x ≥ y)) (k := nlocal)
      (fun x y h => of_decide_eq_true h) (fun x y h => (not_le.mp (of_decide_eq_false h)).le)
      [] xs.reverse (List.pairwise_reverse.mpr hxs) (List.pairwise_reverse.mpr hys)
      (by rw [List.length_reverse]; exact hx.ge) (by rw [List.length_reverse]; exact hy.ge)
    have hlen : (xs ++ ys).length = 2 * nlocal := by
      rw [List.length_append]
      simp only at hx hy
      omega
    have hloop := keepLarge_eq (xs ++ ys) nlocal (i := nlocal) (j := 2 * nlocal) (by omega)
      hlen.ge []
    rw [List.take_left' hx, ← hlen, List.take_length, List.reverse_append] at hloop
    have hperm : (xs.reverse ++ ys.reverse).Perm (xs ++ ys) :=
      (List.reverse_perm xs).append (List.reverse_perm ys)
    rw [List.append_nil, insertionSort_congr hperm, ← reverse_insertionSort] at hpicks
    rw [hpicks, Option.map_some, List.append_nil, List.take_reverse, List.reverse_reverse] at hloop
    have hsub : ((xs ++ ys).insertionSort (· ≤ ·)).length - nlocal = nlocal := by
      rw [List.length_insertionSort]
      omega
    rw [hsub] at hloop
    have hcast : ((xs ++ ys).length : ℤ) - 1 = 2 * nlocal - 1 := by omega
    rw [hcast] at hloop
    exact hloop

/-! ## The pipes -/

section Pipes

variable {size : ℕ} {rank : ℤ}

theorem good_makes (size nlocal : ℕ) (rank : ℤ) : ∀ m ∈ makes size nlocal rank, m.Good rank := by
  have hodd : rank ≠ oddRank rank := by
    rw [oddRank]
    split <;> omega
  have heven : rank ≠ evenRank rank := by
    rw [evenRank]
    split <;> omega
  have hgood {q : ℤ} (hq : rank ≠ q) : ∀ m ∈ [Make.src [q] .int .pipe, .sink [q] .int nlocal .pipe],
      m.Good rank := by
    intro m hm
    simp only [List.mem_cons, List.not_mem_nil, or_false] at hm
    obtain rfl | rfl := hm
    · exact ⟨List.nodup_singleton q, by simpa [Make.peers] using hq, by simp [Make.Copies]⟩
    · exact ⟨List.nodup_singleton q, by simpa [Make.peers] using hq, by simp [Make.Copies]⟩
  intro m hm
  rw [makes] at hm
  split at hm
  · obtain hm | hm := List.mem_append.mp hm
    · split at hm
      · exact hgood hodd m hm
      · cases hm
    · split at hm
      · exact hgood heven m hm
      · cases hm
  · cases hm

theorem dtype_makes (size nlocal : ℕ) (rank : ℤ) :
    ∀ m ∈ makes size nlocal rank, m.dtype = .int := by
  intro m hm
  rw [makes] at hm
  split at hm
  · obtain hm | hm := List.mem_append.mp hm <;> split at hm
    all_goals
      simp only [List.mem_cons, List.not_mem_nil, or_false] at hm
    all_goals
      obtain rfl | rfl := hm <;> rfl
  · cases hm

/-- **The neighbours of a phase**, and the numbers of their channels. -/
structure Neighbours (size nlocal : ℕ) (partner : ℤ → ℤ) (chan : ℤ → ℕ) : Prop where
  invol : ∀ p, partner (partner p) = p
  sink : ∀ p, There size p → There size (partner p) →
    ((makes size nlocal p).filterMap Make.sinkChan)[chan p]? =
      some ⟨.pipe, [partner p], .int, nlocal⟩
  src : ∀ p, There size p → There size (partner p) →
    ((makes size nlocal p).filterMap Make.srcOf)[chan p]? = some ([partner p], .int, .pipe)
  first_src : ∀ p, ordinal ((((makes size nlocal p).filterMap Make.srcOf).take (chan p)).map
    Prod.fst) (partner p) = 0
  first_sink : ∀ p, ordinal (((makes size nlocal p).filterMap Make.consOf).take (chan p))
    (partner p) = 0

theorem neighbours_odd (size nlocal : ℕ) : Neighbours size nlocal oddRank fun _ => 0 where
  invol p := by
    simp only [oddRank]
    split <;> split <;> omega
  sink p hp hodd := by
    simp [makes, hp, hodd, List.filterMap_cons, Make.sinkChan]
  src p hp hodd := by
    simp [makes, hp, hodd, List.filterMap_cons, Make.srcOf]
  first_src p := by simp [ordinal]
  first_sink p := by simp [ordinal]

theorem neighbours_even (size nlocal : ℕ) :
    Neighbours size nlocal evenRank (evenChan size) where
  invol p := by
    simp only [evenRank]
    split <;> split <;> omega
  sink p hp heven := by
    by_cases hodd : There size (oddRank p) <;>
      simp [makes, hp, heven, hodd, evenChan, List.filterMap_cons, Make.sinkChan]
  src p hp heven := by
    by_cases hodd : There size (oddRank p) <;>
      simp [makes, hp, heven, hodd, evenChan, List.filterMap_cons, Make.srcOf]
  first_src p := by
    have hne : evenRank p ≠ oddRank p := by
      rw [evenRank, oddRank]
      split <;> omega
    by_cases hodd : There size (oddRank p)
    · by_cases hp : There size p
      · simp [makes, hp, hodd, evenChan, List.filterMap_cons, Make.srcOf, ordinal, hne]
      · simp [makes, hp, ordinal]
    · simp [evenChan, hodd, ordinal]
  first_sink p := by
    have hne : evenRank p ≠ oddRank p := by
      rw [evenRank, oddRank]
      split <;> omega
    by_cases hodd : There size (oddRank p)
    · by_cases hp : There size p
      · simp [makes, hp, hodd, evenChan, List.filterMap_cons, Make.consOf, ordinal, hne]
      · simp [makes, hp, ordinal]
    · simp [evenChan, hodd, ordinal]

/-- What the pipes are. -/
def conf (size nlocal : ℕ) : Conf ℤ := wired (makes size nlocal)

variable {A : Arith} {R : Type} {nlocal : ℕ} {partner : ℤ → ℤ} {chan : ℤ → ℕ}

/-- What a process does when it has received. -/
def accumulate (nlocal : ℕ) (keepsmall : Bool) (elements recv : List CInt) : Task Local :=
  (Task.ofOption (compareAccum nlocal ⟨elements, recv⟩ keepsmall)).bind fun elements =>
    .done ⟨elements, recv⟩

/-- **A phase**: all neighbours exchange their elements. -/
theorem reaches_phase (hpos : 1 ≤ nlocal) (hn : nlocal < 2 ^ 31)
    (hpartner : Neighbours size nlocal partner chan) (st : ℤ → Local) (k : ℤ → Local → Task R)
    (loc : ℤ → Task R)
    (hloc : ∀ p, There size p → There size (partner p) →
      loc p = (mergeWith nlocal (chan p) (p < partner p) (st p)).bind (k p))
    (hlen : ∀ p, There size p → (st p).elements.length = nlocal ∧ (st p).recv.length = nlocal) :
    Reaches ((conf size nlocal).exchanges A fun _ => Task.program).step ⟨loc, fun _ => []⟩
      ⟨fun p => if There size p ∧ There size (partner p) then
        (accumulate nlocal (p < partner p) (st p).elements (st (partner p)).elements).bind (k p)
        else loc p, fun _ => []⟩ := by
  set active := (ranks size).filter fun p => There size (partner p) with hactive
  have hmem (p : ℤ) : p ∈ active ↔ There size p ∧ There size (partner p) := by
    rw [hactive, List.mem_filter, mem_ranks, decide_eq_true_iff]
  have hback {p : ℤ} (hp : p ∈ active) : partner p ∈ active ∧ partner (partner p) = p := by
    obtain ⟨hthere, hpartner'⟩ := (hmem p).mp hp
    exact ⟨(hmem _).mpr ⟨hpartner', (hpartner.invol p).symm ▸ hthere⟩, hpartner.invol p⟩
  have hcounts : Counts .int nlocal := counts_of_lt (by decide) hpos hn
  have hloc' : ∀ p ∈ active, loc p =
      (Task.put (chan p) (intCodec.encodeAll (st p).elements) nlocal).bind fun _ =>
        (Task.get (chan p) (intCodec.encodeAll (st p).recv) nlocal).bind fun bytes =>
          (accumulate nlocal (p < partner p) (st p).elements
            (intCodec.decodeAll nlocal bytes)).bind (k p) :=
    fun p hp => hloc p ((hmem p).mp hp).1 ((hmem p).mp hp).2
  have hshift := reaches_shift (A := A) (C := intCodec) (good_makes size nlocal) hcounts
    ((nodup_ranks size).filter _ : active.Nodup) hcounts le_rfl partner partner
    (fun p hp => hback hp) (fun p hp => hback hp) chan chan
    (fun p hp => hpartner.sink p ((hmem p).mp hp).1 ((hmem p).mp hp).2)
    (fun p hp => hpartner.src p ((hmem p).mp hp).1 ((hmem p).mp hp).2)
    (fun p hp => by
      have hfirst := hpartner.first_sink (partner p)
      rw [hpartner.invol] at hfirst
      rw [hpartner.first_src, hfirst])
    (fun p => (st p).elements) (fun p => (st p).recv) (fun p hp => (hlen p ((hmem p).mp hp).1).1)
    (fun p hp => (hlen p ((hmem p).mp hp).1).2)
    (fun p recv => (accumulate nlocal (p < partner p) (st p).elements recv).bind (k p)) loc hloc'
  rw [conf]
  convert hshift using 2
  funext p
  exact if_congr (hmem p).symm rfl rfl

end Pipes

/-! ## The rounds -/

section Rounds

variable {size nlocal : ℕ} {partner : ℤ → ℤ} {chan : ℤ → ℕ} {es : ℤ → List CInt}

/-- What a phase leaves. -/
def kept (size nlocal : ℕ) (partner : ℤ → ℤ) (es : ℤ → List CInt) (p : ℤ) : List CInt :=
  if There size p ∧ There size (partner p) then
    if p < partner p then (merged (es p) (es (partner p))).take nlocal
    else (merged (es p) (es (partner p))).drop nlocal
  else es p

/-- The neighbour of the `t`-th phase. -/
def partnerIn (t : ℕ) : ℤ → ℤ := if t % 2 = 0 then evenRank else oddRank

/-- What `t` phases leave. -/
def phases (size nlocal : ℕ) (es : ℤ → List CInt) : ℕ → ℤ → List CInt
  | 0 => es
  | t + 1 => kept size nlocal (partnerIn t) (phases size nlocal es t)

/-- Every process has a sorted row. -/
structure Rows (size nlocal : ℕ) (es : ℤ → List CInt) : Prop where
  sorted : ∀ p, There size p → (es p).Pairwise (· ≤ ·)
  length : ∀ p, There size p → (es p).length = nlocal

theorem Rows.kept (h : Rows size nlocal es) (partner : ℤ → ℤ) :
    Rows size nlocal (kept size nlocal partner es) where
  sorted p hp := by
    rw [OddEven.kept]
    split
    · have hmerged := List.pairwise_insertionSort (· ≤ ·) (es p ++ es (partner p))
      split
      · exact hmerged.sublist (List.take_sublist ..)
      · exact hmerged.sublist (List.drop_sublist ..)
    · exact h.sorted p hp
  length p hp := by
    rw [OddEven.kept]
    split
    · next hthere =>
      have hlen := length_merged (es p) (es (partner p))
      rw [h.length p hp, h.length _ hthere.2] at hlen
      split
      · rw [List.length_take]
        omega
      · rw [List.length_drop]
        omega
    · exact h.length p hp

theorem Rows.phases (h : Rows size nlocal es) (t : ℕ) :
    Rows size nlocal (phases size nlocal es t) := by
  induction t with
  | zero => exact h
  | succ t ih => exact ih.kept _

/-- What the processes have between phases. -/
structure Have (size nlocal : ℕ) (st : ℤ → Local) (es : ℤ → List CInt) : Prop where
  elements : ∀ p, There size p → (st p).elements = es p
  recv : ∀ p, There size p → (st p).recv.length = nlocal

variable {A : Arith} {R : Type} {st : ℤ → Local}

/-- **A phase, of all processes**: those that have no neighbour in it go on. -/
theorem reaches_kept (hpos : 1 ≤ nlocal) (hn : nlocal < 2 ^ 31)
    (hpartner : Neighbours size nlocal partner chan) (hes : Rows size nlocal es)
    (hst : Have size nlocal st es) (k : ℤ → Local → Task R) (loc : ℤ → Task R)
    (hloc : ∀ p, There size p →
      loc p = (phase size nlocal p (partner p) (chan p) (st p)).bind (k p)) :
    ∃ st', Have size nlocal st' (kept size nlocal partner es) ∧
      Reaches ((conf size nlocal).exchanges A fun _ => Task.program).step ⟨loc, fun _ => []⟩
        ⟨fun p => if There size p then k p (st' p) else loc p, fun _ => []⟩ := by
  have hphase := reaches_phase (A := A) hpos hn hpartner st k loc
    (fun p hp hq => by rw [hloc p hp, phase, if_pos hq])
    fun p hp => ⟨(hst.elements p hp).symm ▸ hes.length p hp, hst.recv p hp⟩
  obtain ⟨st', hst'⟩ : ∃ st' : ℤ → Local, ∀ p, st' p =
      if There size p ∧ There size (partner p) then ⟨kept size nlocal partner es p, es (partner p)⟩
      else st p := ⟨_, fun _ => rfl⟩
  refine ⟨st', ⟨fun p hp => ?_, fun p hp => ?_⟩, ?_⟩
  · rw [hst']
    split
    · rfl
    · next hthere => rw [hst.elements p hp, kept, if_neg hthere]
  · rw [hst']
    split
    · next hthere => exact hes.length _ hthere.2
    · exact hst.recv p hp
  · convert hphase using 2
    funext p
    by_cases hp : There size p
    · by_cases hq : There size (partner p)
      · have hcompare := compareAccum_eq ⟨es p, es (partner p)⟩
          (hes.sorted p hp) (hes.sorted _ hq) (hes.length p hp) (hes.length _ hq)
          (decide (p < partner p))
        have hkept : kept size nlocal partner es p = if decide (p < partner p) = true then
            (merged (es p) (es (partner p))).take nlocal
            else (merged (es p) (es (partner p))).drop nlocal := by
          simp [kept, hp, hq]
        rw [if_pos hp, if_pos ⟨hp, hq⟩, hst', if_pos ⟨hp, hq⟩, hst.elements p hp,
          hst.elements _ hq, accumulate, hcompare, hkept]
        rfl
      · rw [if_pos hp, if_neg fun h => hq h.2, hst', if_neg fun h => hq h.2, hloc p hp, phase,
          if_neg hq]
        rfl
    · rw [if_neg hp, if_neg fun h => hp h.1]

/-- **The main loop**: two phases a round. -/
theorem reaches_mainLoop (hpos : 1 ≤ nlocal) (hn : nlocal < 2 ^ 31) (hes : Rows size nlocal es)
    (k : ℤ → Local → Task R) (loc : ℤ → Task R) (i r : ℕ)
    (hst : Have size nlocal st (phases size nlocal es (2 * r)))
    (hloc : ∀ p, There size p → loc p = (mainLoop size nlocal p i (st p)).bind (k p)) :
    ∃ st', Have size nlocal st' (phases size nlocal es (2 * (r + i))) ∧
      Reaches ((conf size nlocal).exchanges A fun _ => Task.program).step ⟨loc, fun _ => []⟩
        ⟨fun p => if There size p then k p (st' p) else loc p, fun _ => []⟩ := by
  induction i generalizing r st loc with
  | zero =>
    refine ⟨st, hst, ?_⟩
    have hsame : (fun p => if There size p then k p (st p) else loc p) = loc := by
      funext p
      split
      · next hp => exact (hloc p hp).symm
      · rfl
    rw [hsame]
    exact .refl _
  | succ i ih =>
    obtain ⟨st₁, hst₁, hreach₁⟩ := reaches_kept (A := A) hpos hn (neighbours_even size nlocal)
      (hes.phases (2 * r)) hst
      (fun p st => ((phase size nlocal p (oddRank p) 0 st).bind (mainLoop size nlocal p i)).bind
        (k p)) loc
      fun p hp => by rw [hloc p hp, ← Task.bind_assoc]; rfl
    obtain ⟨st₂, hst₂, hreach₂⟩ := reaches_kept (A := A) hpos hn (neighbours_odd size nlocal)
      ((hes.phases (2 * r)).kept _) hst₁ (fun p st => (mainLoop size nlocal p i st).bind (k p))
      (fun p => if There size p then ((phase size nlocal p (oddRank p) 0 (st₁ p)).bind
        (mainLoop size nlocal p i)).bind (k p) else loc p)
      fun p hp => by rw [if_pos hp, Task.bind_assoc]
    have heven : 2 * r % 2 = 0 := by omega
    have hodd : (2 * r + 1) % 2 ≠ 0 := by omega
    have hphases : kept size nlocal oddRank
        (kept size nlocal evenRank (phases size nlocal es (2 * r))) =
        phases size nlocal es (2 * (r + 1)) := by
      rw [Nat.mul_succ, phases, phases, partnerIn, partnerIn, if_pos heven, if_neg hodd]
    rw [hphases] at hst₂
    obtain ⟨st', hst', hreach'⟩ := ih _ (r + 1) hst₂ fun p hp => if_pos hp
    refine ⟨st', ?_, hreach₁.trans (hreach₂.trans ?_)⟩
    · rwa [Nat.add_right_comm, Nat.add_assoc] at hst'
    · convert hreach' using 3
      next p => split <;> rfl

/-- What the sortings have in order, before the phases. -/
def filled (nlocal : ℕ) (random : ℕ → ℕ → ℕ) (j : ℕ) (p : ℤ) : List CInt :=
  qsort (fill nlocal random (p.toNat + 1 + j))

/-- What the `j`-th sorting prints. -/
def printed (size nlocal : ℕ) (random : ℕ → ℕ → ℕ) (j : ℕ) : ℤ → List CInt :=
  phases size nlocal (filled nlocal random j) (2 * (size / 2))

/-- What the sortings print from the `j`-th on. -/
def prints (size nlocal : ℕ) (random : ℕ → ℕ → ℕ) : ℕ → ℕ → ℤ → List (List CInt)
  | 0, _, _ => []
  | left + 1, j, p => printed size nlocal random j p :: prints size nlocal random left (j + 1) p

theorem length_filled (nlocal : ℕ) (random : ℕ → ℕ → ℕ) (j : ℕ) (p : ℤ) :
    (filled nlocal random j p).length = nlocal := by
  rw [filled, qsort_eq, List.length_insertionSort, fill, List.length_map, List.length_range]

theorem rows_filled (size nlocal : ℕ) (random : ℕ → ℕ → ℕ) (j : ℕ) :
    Rows size nlocal (filled nlocal random j) where
  sorted p _ := by
    rw [filled, qsort_eq]
    exact List.pairwise_insertionSort _ _
  length p _ := length_filled nlocal random j p

/-- A sorting, and those behind it. -/
theorem sortings_succ {p : ℤ} (random : ℕ → ℕ → ℕ) (left j : ℕ) (st : Local)
    (k : List (List CInt) → Task R) :
    (sortings size nlocal p random (left + 1) j st).bind k =
      (mainLoop size nlocal p (size / 2) ⟨filled nlocal random j p, st.recv⟩).bind fun st =>
        (sortings size nlocal p random left (j + 1) st).bind fun rest =>
          k (st.elements :: rest) := by
  refine (Task.bind_assoc ..).trans (congrArg _ (funext fun st => ?_))
  exact Task.bind_assoc ..

/-- **All sortings.** -/
theorem reaches_sortings (hpos : 1 ≤ nlocal) (hn : nlocal < 2 ^ 31) (random : ℕ → ℕ → ℕ)
    (k : ℤ → List (List CInt) → Task R) (loc : ℤ → Task R) (st : ℤ → Local) (left j : ℕ)
    (hrecv : ∀ p, There size p → (st p).recv.length = nlocal)
    (hloc : ∀ p, There size p →
      loc p = (sortings size nlocal p random left j (st p)).bind (k p)) :
    Reaches ((conf size nlocal).exchanges A fun _ => Task.program).step ⟨loc, fun _ => []⟩
      ⟨fun p => if There size p then k p (prints size nlocal random left j p) else loc p,
        fun _ => []⟩ := by
  induction left generalizing j st loc k with
  | zero =>
    have hsame : (fun p => if There size p then k p (prints size nlocal random 0 j p)
        else loc p) = loc := by
      funext p
      split
      · next hp => exact (hloc p hp).symm
      · rfl
    rw [hsame]
    exact .refl _
  | succ left ih =>
    obtain ⟨st', hst', hloop⟩ := reaches_mainLoop (A := A) hpos hn
      (rows_filled size nlocal random j) (fun p st =>
        (sortings size nlocal p random left (j + 1) st).bind fun rest => k p (st.elements :: rest))
      loc (size / 2) 0 (⟨fun p _ => rfl, hrecv⟩ :
        Have size nlocal (fun p => ⟨filled nlocal random j p, (st p).recv⟩) _)
      fun p hp => by rw [hloc p hp, sortings_succ]
    rw [Nat.zero_add] at hst'
    have hrest := ih (fun p rest => k p (printed size nlocal random j p :: rest))
      (fun p => if There size p then (sortings size nlocal p random left (j + 1) (st' p)).bind
        fun rest => k p ((st' p).elements :: rest) else loc p) st' (j + 1) hst'.recv
      fun p hp => by rw [if_pos hp, hst'.elements p hp]; rfl
    refine hloop.trans ?_
    convert hrest using 3
    next p => split <;> rfl

/-- **All runs of the sort end**, and with these rows. -/
theorem allEnd (size : ℕ) (A : Arith) (fresh : Fresh ℤ) (hpos : 1 ≤ nlocal) (hn : nlocal < 2 ^ 31)
    (random : ℕ → ℕ → ℕ) (reps : ℕ) :
    (conf size nlocal).AllEnd A (fun _ => Task.program) fresh
      (fun p => main size nlocal p random reps)
      fun p => .done (if There size p then prints size nlocal random reps 0 p else []) := by
  have hgood := good_makes size nlocal
  have hreach := reaches_sortings (A := A) hpos hn random (fun _ => .done)
    (fun p => main size nlocal p random reps)
    (fun _ => ⟨List.replicate nlocal 0,
      List.replicate nlocal 0⟩) reps 0
    (fun p (hp : There size p) => List.length_replicate) fun p hp => by
      rw [main, if_pos hp, Task.bind_done]
  have hend := Conf.allEnd_of_exchanges fresh
    (ordered_wired hgood (typed_of_eq (dtype_makes size nlocal))) (oneToOne_wired hgood)
    (apart_wired hgood) hreach fun q => by
      dsimp only
      split
      · rfl
      · next hq => rw [main, if_neg hq]; rfl
  have hfinal : (fun p => if There size p then Task.done (prints size nlocal random reps 0 p)
      else main size nlocal p random reps) =
      fun p => .done (if There size p then prints size nlocal random reps 0 p else []) := by
    funext p
    split
    · rfl
    · next hp => rw [main, if_neg hp]; rfl
  rw [← hfinal]
  exact hend

end Rounds

/-! ## What they print -/

section Sorted

variable {size nlocal : ℕ} {es : ℤ → List CInt}

theorem partnerIn_eq (p t : ℕ) : partnerIn t p =
    if (p + t) % 2 = 1 then (p : ℤ) + 1 else (p : ℤ) - 1 := by
  rw [partnerIn]
  split <;> split
  · rw [evenRank, if_pos (by omega)]
  · rw [evenRank, if_neg (by omega)]
  · rw [oddRank, if_neg (by omega)]
  · rw [oddRank, if_pos (by omega)]

/-- **The phases merge and split.** -/
theorem phase_phases (hes : Rows size nlocal es) (t : ℕ) :
    MergePhase nlocal size t (fun i : ℕ => phases size nlocal es t i)
      fun i : ℕ => phases size nlocal es (t + 1) i where
  pair p hp hodd := by
    have hthere : There size (p : ℤ) := ⟨by omega, by omega⟩
    have hthere' : There size ((p + 1 : ℕ) : ℤ) := ⟨by omega, by omega⟩
    have hlow : partnerIn t p = (p + 1 : ℕ) := by
      rw [partnerIn_eq, if_pos hodd]
      rfl
    have hhigh : partnerIn t (p + 1 : ℕ) = p := by
      rw [partnerIn_eq, if_neg (by omega)]
      omega
    have hsplit := splits_insertionSort (phases size nlocal es t (p + 1 : ℕ))
      ((hes.phases t).length p hthere)
    rw [phases, kept, kept, hlow, hhigh, if_pos ⟨hthere, hthere'⟩, if_pos (by omega),
      if_pos ⟨hthere', hthere⟩, if_neg (by omega),
      merged_comm (phases size nlocal es t (p + 1 : ℕ))]
    exact hsplit
  idle p hp hodd heven := by
    rw [phases, kept, partnerIn_eq]
    refine if_neg fun h => ?_
    obtain ⟨-, hle, hlt⟩ := h
    split at hle <;> omega

variable {random : ℕ → ℕ → ℕ} {left j i : ℕ} {p : ℤ}

theorem getElem?_prints (hi : i < left) :
    (prints size nlocal random left j p)[i]? = some (printed size nlocal random (j + i) p) := by
  induction left generalizing i j with
  | zero => omega
  | succ left ih =>
    cases i with
    | zero => rfl
    | succ i =>
      rw [prints, List.getElem?_cons_succ, ih (by omega), Nat.add_right_comm, Nat.add_assoc]

theorem getD_prints {reps : ℕ} (hj : j < reps) {i : ℕ} (hi : i < size) :
    (if There size (i : ℤ) then prints size nlocal random reps 0 i else []).getD j [] =
      printed size nlocal random j i := by
  have hthere : There size (i : ℤ) := ⟨by omega, by omega⟩
  rw [if_pos hthere, List.getD_eq_getElem?_getD, getElem?_prints hj, Nat.zero_add,
    Option.getD_some]

/-- **Nothing is lost.** -/
theorem perm_printed (size nlocal : ℕ) (random : ℕ → ℕ → ℕ) (j : ℕ) :
    (upTo (fun i : ℕ => printed size nlocal random j i) size).Perm
      (upTo (fun i : ℕ => fill nlocal random (i + 1 + j)) size) := by
  have hphases := perm_phases (fun t (i : ℕ) => phases size nlocal (filled nlocal random j) t i)
    (T := 2 * (size / 2)) (fun t _ => phase_phases (rows_filled size nlocal random j) t) _ le_rfl
  refine hphases.trans (List.Perm.flatMap_left _ fun i _ => ?_)
  change (filled nlocal random j i).Perm _
  rw [filled, qsort_eq, Int.toNat_natCast]
  exact List.perm_insertionSort _ _

/-- **An even number of processes makes enough phases**, and a single one needs none. -/
theorem sorted_printed (hsize : size % 2 = 0 ∨ size = 1) (nlocal : ℕ) (random : ℕ → ℕ → ℕ)
    (j : ℕ) : (upTo (fun i : ℕ => printed size nlocal random j i) size).Pairwise (· ≤ ·) := by
  have hrows := rows_filled size nlocal random j
  obtain heven | rfl := hsize
  · exact sorted_phases (fun t (i : ℕ) => phases size nlocal (filled nlocal random j) t i)
      (T := 2 * (size / 2)) (fun t _ => phase_phases hrows t)
      (fun i hi => hrows.length i ⟨by omega, by omega⟩)
      (fun i hi => hrows.sorted i ⟨by omega, by omega⟩) (by omega)
  · rw [upTo_succ, upTo_zero, List.nil_append]
    exact (hrows.phases _).sorted 0 ⟨by omega, by omega⟩

/-- Only the first process has anything but zeros at first. -/
def late (seed _ : ℕ) : ℕ := if seed = 1 then 1 else 0

/-- **An odd number makes one too few.** -/
theorem unsorted_printed (hsize : size % 2 = 1) (hne : size ≠ 1) (hpos : 1 ≤ nlocal) :
    ¬ (upTo (fun i : ℕ => printed size nlocal late 0 i) size).Pairwise (· ≤ ·) := by
  have hrows := rows_filled size nlocal late 0
  have hmem {i : ℕ} {x : CInt} (hx : x ∈ filled nlocal late 0 i) :
      x.val = if i = 0 then 1 else 0 := by
    rw [filled, qsort_eq, List.mem_insertionSort, fill, List.mem_map] at hx
    obtain ⟨_, -, rfl⟩ := hx
    by_cases hi : i = 0 <;> simp [late, hi]
  exact unsorted_phases (fun t (i : ℕ) => phases size nlocal (filled nlocal late 0) t i)
    (T := 2 * (size / 2)) (m := nlocal) (v := 0) (fun t _ => phase_phases hrows t)
    (fun i hi => hrows.length i ⟨by omega, by omega⟩) hpos (by omega) (by omega)
    (fun x hx => CInt.lt_def.mpr ((hmem (i := 0) hx).symm ▸ Int.one_pos))
    fun i _ hi x hx => by
      have hx := hmem (i := i) hx
      rw [if_neg hi] at hx
      exact CInt.le_def.mpr hx.le

/-! ## The sort -/

/-- **All runs of the sortings end**, where the channels are to be destroyed; and in each of them
the processes have printed what they had before, every one its own part in order. -/
theorem sort_ends (A : Arith) (fresh : Fresh ℤ) (hpos : 1 ≤ nlocal) (hn : nlocal < 2 ^ 30)
    (random : ℕ → ℕ → ℕ) (reps : ℕ) :
    ∃ out : ℤ → List (List CInt), (conf size nlocal).AllEnd A (fun _ => Task.program) fresh
      (fun p => main size nlocal p random reps) (fun p => .done (out p)) ∧
      ∀ j < reps, (upTo (fun i : ℕ => (out i).getD j []) size).Perm
        (upTo (fun i : ℕ => fill nlocal random (i + 1 + j)) size) ∧
        ∀ i < size, ((out i).getD j []).length = nlocal ∧
          ((out i).getD j []).Pairwise (· ≤ ·) := by
  refine ⟨_, allEnd size A fresh hpos (hn.trans (by decide)) random reps, fun j hj => ?_⟩
  constructor
  · rw [upTo_congr fun i hi => getD_prints hj hi]
    exact perm_printed size nlocal random j
  · intro i hi
    have hrows := (rows_filled size nlocal random j).phases (2 * (size / 2))
    rw [getD_prints hj hi]
    exact ⟨hrows.length i ⟨by omega, by omega⟩, hrows.sorted i ⟨by omega, by omega⟩⟩

theorem sort_ends_four : ∃ out : ℤ → List (List CInt), (conf 4 2).AllEnd noArith
    (fun _ => Task.program) ⟨fun _ _ _ _ => 0, fun _ _ _ => 0⟩ (fun p => main 4 2 p late 1)
    (fun p => .done (out p)) ∧
    ∀ j < 1, (upTo (fun i : ℕ => (out i).getD j []) 4).Perm
      (upTo (fun i : ℕ => fill 2 late (i + 1 + j)) 4) ∧
      ∀ i < 4, ((out (i : ℕ)).getD j []).length = 2 ∧
        ((out (i : ℕ)).getD j []).Pairwise (· ≤ ·) :=
  sort_ends noArith ⟨fun _ _ _ _ => 0, fun _ _ _ => 0⟩ (by decide) (by decide) late 1

/-- The sort sorts: all its runs come to the destruction of the channels, and in each sorting the
processes have printed the numbers in order, from rank to rank. -/
def Sorts (A : Arith) (fresh : Fresh ℤ) (size nlocal : ℕ) (random : ℕ → ℕ → ℕ) (reps : ℕ) : Prop :=
  ∃ out : ℤ → List (List CInt), (conf size nlocal).AllEnd A (fun _ => Task.program) fresh
    (fun p => main size nlocal p random reps) (fun p => .done (out p)) ∧
    ∀ j < reps, (upTo (fun i : ℕ => (out i).getD j []) size).Pairwise (· ≤ ·)

theorem sorts_iff_printed (A : Arith) (fresh : Fresh ℤ) (hpos : 1 ≤ nlocal) (hn : nlocal < 2 ^ 31)
    (reps : ℕ) : Sorts A fresh size nlocal random reps ↔
      ∀ j < reps, (upTo (fun i : ℕ => printed size nlocal random j i) size).Pairwise (· ≤ ·) := by
  have hall := allEnd size A fresh hpos hn random reps
  constructor
  · rintro ⟨out, hout, hsorted⟩ j hj
    have heq := hout.unique hall
    have hprints (p : ℤ) : out p = if There size p then prints size nlocal random reps 0 p
        else [] := Task.done.inj (congrFun heq p)
    have hsorted := hsorted j hj
    simp only [hprints] at hsorted
    rwa [upTo_congr fun i hi => getD_prints hj hi] at hsorted
  · intro hsorted
    refine ⟨_, hall, fun j hj => ?_⟩
    rw [upTo_congr fun i hi => getD_prints hj hi]
    exact hsorted j hj

/-- **The sort sorts whatever it is given, if and only if the number of processes is even or
one.** -/
theorem sorts_iff (A : Arith) (fresh : Fresh ℤ) (hsize : 1 ≤ size) (hpos : 1 ≤ nlocal)
    (hn : nlocal < 2 ^ 30) {reps : ℕ} (hreps : 1 ≤ reps) :
    (∀ random, Sorts A fresh size nlocal random reps) ↔ size % 2 = 0 ∨ size = 1 := by
  have hn : nlocal < 2 ^ 31 := hn.trans (by decide)
  constructor
  · intro hall
    by_contra hodd
    have hlate := (sorts_iff_printed A fresh hpos hn reps).mp (hall late) 0 hreps
    exact unsorted_printed (by omega) (by omega) hpos hlate
  · intro heven random
    exact (sorts_iff_printed A fresh hpos hn reps).mpr fun j _ =>
      sorted_printed heven nlocal random j

theorem sorts_iff_three :
    ¬ ∀ random, Sorts noArith ⟨fun _ _ _ _ => 0, fun _ _ _ => 0⟩ 3 1 random 1 :=
  fun h => absurd ((sorts_iff noArith ⟨fun _ _ _ _ => 0, fun _ _ _ => 0⟩ (by decide) (by decide)
    (by decide) (by decide)).mp h) (by decide)

end Sorted

end OddEven

end Libdsys
