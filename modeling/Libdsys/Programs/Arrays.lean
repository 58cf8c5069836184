import Libdsys.Machinery.Codec
import Libdsys.Programs.Wiring

/-!
# Programs/Arrays — rounds of arrays

Programs put and get arrays of values.  In a round what some processes put the others get, value by
value.

* `reaches_cast` — a pipe, a replication or a spreading, and all its consumers.
* `reaches_shift` — every process puts to one and gets from another.
* `reaches_collect` — a collection, and all its producers.
-/

open Machinery

namespace Libdsys

variable {α R : Type}

/-- A number of units whose bytes can be counted. -/
structure Counts (dtype : Dtype) (n : ℕ) : Prop where
  pos : 1 ≤ n
  lt : n < 2 ^ 31
  bytes : n * dtype.bytes < 2 ^ 64

theorem counts_of_lt {dtype : Dtype} (hbytes : dtype.bytes ≤ 16) {n : ℕ} (hpos : 1 ≤ n)
    (hlt : n < 2 ^ 31) : Counts dtype n where
  pos := hpos
  lt := hlt
  bytes := (Nat.mul_le_mul hlt.le hbytes).trans_lt (by decide)

theorem Counts.sizeMul_eq {dtype : Dtype} {n : ℕ} (h : Counts dtype n) :
    sizeMul dtype.bytes (n : ℤ).toNat = n * dtype.bytes := sizeMul_units h.bytes

/-- What a consumer of a channel has of an array. -/
def SinkChan.piece (ch : SinkChan ℤ) (n : ℕ) (xs : List α) (q : ℤ) : List α :=
  match ch.role with
  | .spread => (xs.drop (ch.plist.idxOf q * n)).take n
  | _ => xs.take n

section Rounds

variable {makes : ℤ → List Make} {A : Arith} {dtype : Dtype} {C : Codec α Byte dtype.bytes} {n : ℕ}
  {p q : ℤ}

/-- A channel that an array can be put on: it has room for it, and the array has a piece for every
consumer. -/
structure SinkChan.Takes (ch : SinkChan ℤ) (dtype : Dtype) (n : ℕ) (xs : List α) : Prop where
  typed : ch.dtype = dtype
  counts : Counts dtype ch.dunits
  fits : n ≤ ch.dunits
  holds : (if ch.role = .spread then ch.plist.length else 1) * n ≤ xs.length

/-- **A put of an array.** -/
theorem atPut_array (hgood : ∀ p, ∀ m ∈ makes p, m.Good p) (hn : Counts dtype n) {c : ℕ}
    {ch : SinkChan ℤ} (hch : ((makes p).filterMap Make.sinkChan)[c]? = some ch) {xs : List α}
    (hxs : ch.Takes dtype n xs) (next : Task R) :
    AtPut (wired makes) p ((Task.put c (C.encodeAll xs) n).bind fun _ => next)
      ⟨c, ch, C.encodeAll xs, n⟩ next := by
  obtain ⟨hdtype, hunits, hfits, hholds⟩ := hxs
  have hmem := List.mem_of_getElem? (wired_sinks makes p ▸ hch)
  obtain ⟨hnodup, -, hroles, -⟩ := good_of_sink hgood hmem
  obtain ⟨role, plist, dtype', dunits⟩ := ch
  obtain rfl : dtype' = dtype := hdtype
  have hsize := hn.sizeMul_eq
  have hlen : (C.encodeAll xs).length = xs.length * dtype'.bytes := Codec.length_encodeAll xs
  refine ⟨rfl, hch, ?_, ?_, ?_, by change 1 ≤ (n : ℤ); have := hn.pos; omega⟩
  · simp only [List.mem_cons, List.not_mem_nil, or_false] at hroles
    obtain rfl | rfl | rfl := hroles
    · exact .inl rfl
    · exact .inr ⟨.inl rfl, hnodup⟩
    · exact .inr ⟨.inr rfl, hnodup⟩
  · have hbytes := Nat.mul_le_mul_right dtype'.bytes hholds
    rw [Nat.mul_assoc, ← hsize, ← hlen] at hbytes
    simp only [List.mem_cons, List.not_mem_nil, or_false] at hroles
    obtain rfl | rfl | rfl := hroles
    · exact (Nat.one_mul _).symm.trans_le hbytes
    · exact (Nat.one_mul _).symm.trans_le hbytes
    · exact hbytes
  · change sizeMul dtype'.bytes (n : ℤ).toNat ≤ unitsSize dunits dtype'.bytes
    rw [hsize, unitsSize_eq hunits.lt hunits.bytes]
    exact Nat.mul_le_mul_right _ hfits

/-- What of it a consumer is given. -/
theorem share_array (hn : Counts dtype n) {c : ℕ} {ch : SinkChan ℤ} (hdtype : ch.dtype = dtype)
    (xs : List α) (q : ℤ) : Putting.share ⟨c, ch, C.encodeAll xs, n⟩ (Conf.node ch q) =
      C.encodeAll (ch.piece n xs q) := by
  obtain ⟨role, plist, dtype', dunits⟩ := ch
  obtain rfl : dtype' = dtype := hdtype
  have hsize := hn.sizeMul_eq
  have htake : (C.encodeAll xs).take (sizeMul dtype'.bytes (n : ℤ).toNat) =
      C.encodeAll (xs.take n) := by rw [hsize, Codec.take_encodeAll]
  cases role with
  | spread =>
    change ((C.encodeAll xs).drop (plist.idxOf q * sizeMul dtype'.bytes (n : ℤ).toNat)).take
      (sizeMul dtype'.bytes (n : ℤ).toNat) = C.encodeAll ((xs.drop (plist.idxOf q * n)).take n)
    rw [hsize, ← Nat.mul_assoc, Codec.drop_encodeAll, Codec.take_encodeAll]
  | _ => exact htake

theorem length_piece {ch : SinkChan ℤ} {xs : List α} (h : ch.Takes dtype n xs) (hq : q ∈ ch.plist) :
    (ch.piece n xs q).length = n := by
  obtain ⟨role, plist, dtype', dunits⟩ := ch
  have hholds := h.holds
  have hone (h : 1 * n ≤ xs.length) : (xs.take n).length = n :=
    List.length_take_of_le ((Nat.one_mul n).symm.trans_le h)
  cases role with
  | spread =>
    have hidx := List.idxOf_lt_length_of_mem hq
    have hle : (plist.idxOf q + 1) * n ≤ xs.length := (Nat.mul_le_mul_right n hidx).trans hholds
    rw [Nat.succ_mul] at hle
    refine List.length_take_of_le ?_
    rw [List.length_drop]
    exact Nat.le_sub_of_add_le (by rwa [Nat.add_comm])
  | _ => exact hone hholds

/-- **A put and the gets of all consumers.** -/
theorem reaches_cast (hgood : ∀ p, ∀ m ∈ makes p, m.Good p) (hn : Counts dtype n) {c : ℕ}
    {ch : SinkChan ℤ} (hch : ((makes p).filterMap Make.sinkChan)[c]? = some ch)
    (hone : ch.role = .pipe → ch.plist.length = 1) {xs : List α} (hxs : ch.Takes dtype n xs)
    (src : ℤ → ℕ) (hsrc : ∀ q ∈ ch.plist,
      ((makes q).filterMap Make.srcOf)[src q]? = some ([p], dtype, .pipe) ∧
      ordinal ((((makes q).filterMap Make.srcOf).take (src q)).map Prod.fst) p =
        ordinal (((makes p).filterMap Make.consOf).take c) q)
    (buf : ℤ → List α) (hbuf : ∀ q ∈ ch.plist, (buf q).length = n) (mid : Task R)
    (next : ℤ → List α → Task R) (loc : ℤ → Task R)
    (hput : loc p = (Task.put c (C.encodeAll xs) n).bind fun _ => mid)
    (hget : ∀ q ∈ ch.plist, loc q = (Task.get (src q) (C.encodeAll (buf q)) n).bind fun bytes =>
      next q (C.decodeAll n bytes)) :
    Reaches ((wired makes).exchanges A fun _ => Task.program).step ⟨loc, fun _ => []⟩
      ⟨fun q => if q ∈ ch.plist then next q (ch.piece n xs q) else if q = p then mid else loc q,
        fun _ => []⟩ := by
  have hsize := hn.sizeMul_eq
  have hmem := List.mem_of_getElem? (wired_sinks makes p ▸ hch)
  obtain ⟨hnodup, hapart, -, -⟩ := good_of_sink hgood hmem
  have hat := atPut_array (C := C) hgood hn hch hxs mid
  rw [← hput] at hat
  let y (q : ℤ) : Getting ℤ := ⟨src q, ⟨.pipe,
    [(p, ordinal ((((makes q).filterMap Make.srcOf).take (src q)).map Prod.fst) p)], dtype⟩,
    [(p, c, Conf.node ch q)], C.encodeAll (buf q), n⟩
  have hgets : ∀ q ∈ ch.plist, AtGet (wired makes) q (loc q) (y q) fun bytes =>
      next q (C.decodeAll n bytes) := by
    intro q hq
    obtain ⟨hj, hord⟩ := hsrc q hq
    rw [hget q hq]
    exact atGet_pipe hgood hj hch hq hord (C.encodeAll (buf q)) n
      (by rw [hsize, Codec.length_encodeAll, hbuf q hq]) (by have := hn.pos; omega) _
  have hsend := reaches_send (A := A) hat hapart hnodup hone
    fun q hq => ⟨hgets q hq, rfl, by rw [Getting.size, Putting.size, hxs.typed]⟩
  convert hsend using 2
  funext q
  by_cases hq : q ∈ ch.plist
  · have hdecode := Codec.decodeAll_encodeAll (C := C) (ch.piece n xs q)
      ((C.encodeAll (buf q)).drop (Putting.size ⟨c, ch, C.encodeAll xs, n⟩))
    rw [length_piece hxs hq] at hdecode
    rw [if_pos hq, if_pos hq, share_array hn hxs.typed, hdecode]
  · rw [if_neg hq, if_neg hq]

/-- **A shift**: every process puts an array to one and gets one from another. -/
theorem reaches_shift (hgood : ∀ p, ∀ m ∈ makes p, m.Good p) (hn : Counts dtype n)
    {active : List ℤ} (hnodup : active.Nodup) {dunits : ℕ} (hunits : Counts dtype dunits)
    (hfits : n ≤ dunits) (succ pred : ℤ → ℤ)
    (hsucc : ∀ p ∈ active, succ p ∈ active ∧ pred (succ p) = p)
    (hpred : ∀ p ∈ active, pred p ∈ active ∧ succ (pred p) = p) (sink src : ℤ → ℕ)
    (hsink : ∀ p ∈ active, ((makes p).filterMap Make.sinkChan)[sink p]? =
      some ⟨.pipe, [succ p], dtype, dunits⟩)
    (hsrc : ∀ p ∈ active, ((makes p).filterMap Make.srcOf)[src p]? = some ([pred p], dtype, .pipe))
    (hord : ∀ p ∈ active,
      ordinal ((((makes p).filterMap Make.srcOf).take (src p)).map Prod.fst) (pred p) =
        ordinal (((makes (pred p)).filterMap Make.consOf).take (sink (pred p))) p)
    (out buf : ℤ → List α) (hout : ∀ p ∈ active, (out p).length = n)
    (hbuf : ∀ p ∈ active, (buf p).length = n) (next : ℤ → List α → Task R) (loc : ℤ → Task R)
    (hloc : ∀ p ∈ active, loc p = (Task.put (sink p) (C.encodeAll (out p)) n).bind fun _ =>
      (Task.get (src p) (C.encodeAll (buf p)) n).bind fun bytes => next p (C.decodeAll n bytes)) :
    Reaches ((wired makes).exchanges A fun _ => Task.program).step ⟨loc, fun _ => []⟩
      ⟨fun p => if p ∈ active then next p (out (pred p)) else loc p, fun _ => []⟩ := by
  have hsize := hn.sizeMul_eq
  have hfit {p : ℤ} (hp : p ∈ active) :
      SinkChan.Takes ⟨.pipe, [succ p], dtype, dunits⟩ dtype n (out p) :=
    ⟨rfl, hunits, hfits, by rw [hout p hp]; exact (Nat.one_mul n).le⟩
  let mid (p : ℤ) : Task R := if p ∈ active then (Task.get (src p) (C.encodeAll (buf p)) n).bind
    fun bytes => next p (C.decodeAll n bytes) else loc p
  let x (p : ℤ) : Putting ℤ := ⟨sink p, ⟨.pipe, [succ p], dtype, dunits⟩, C.encodeAll (out p), n⟩
  let y (p : ℤ) : Getting ℤ := ⟨src p, ⟨.pipe, [(pred p,
    ordinal ((((makes p).filterMap Make.srcOf).take (src p)).map Prod.fst) (pred p))], dtype⟩,
    [(pred p, sink (pred p), 0)], C.encodeAll (buf p), n⟩
  have hputs : ∀ p ∈ active, AtPut (wired makes) p (loc p) (x p) (mid p) := by
    intro p hp
    have hat := atPut_array (C := C) hgood hn (hsink p hp) (hfit hp) (mid p)
    have hmid : mid p = (Task.get (src p) (C.encodeAll (buf p)) n).bind
      fun bytes => next p (C.decodeAll n bytes) := if_pos hp
    rwa [hmid, ← hloc p hp, ← hmid] at hat
  have hgets : ∀ p ∈ active, AtGet (wired makes) p (mid p) (y p) fun bytes =>
      next p (C.decodeAll n bytes) := by
    intro p hp
    obtain ⟨hthere, hback⟩ := hpred p hp
    have hmid : mid p = (Task.get (src p) (C.encodeAll (buf p)) n).bind
      fun bytes => next p (C.decodeAll n bytes) := if_pos hp
    rw [hmid]
    exact atGet_pipe hgood (hsrc p hp) (hsink _ hthere) (List.mem_singleton.mpr hback.symm)
      (hord p hp) (C.encodeAll (buf p)) n (by rw [hsize, Codec.length_encodeAll, hbuf p hp])
      (by have := hn.pos; omega) _
  have hround := reaches_round (A := A) hnodup hnodup hputs (fun p hp => if_neg hp) hgets ?_ ?_
  · convert hround using 2
    funext p
    by_cases hp : p ∈ active
    · have hshare : (x (pred p)).share 0 = C.encodeAll (out (pred p)) := by
        refine List.take_of_length_le ?_
        change (C.encodeAll (out (pred p))).length ≤ sizeMul dtype.bytes (n : ℤ).toNat
        rw [hsize, Codec.length_encodeAll, hout _ (hpred p hp).1]
      have hdecode := Codec.decodeAll_encodeAll (C := C) (out (pred p))
        ((C.encodeAll (buf p)).drop (1 * sizeMul dtype.bytes (n : ℤ).toNat))
      rw [hout _ (hpred p hp).1] at hdecode
      rw [if_pos hp, if_pos hp]
      simp only [y, List.flatMap_cons, List.flatMap_nil, List.append_nil, hshare, Getting.size,
        List.length_singleton, hdecode]
    · rw [if_neg hp, if_neg hp]
      exact (if_neg hp).symm
  · intro p hp i hi
    obtain rfl : i = 0 := Nat.lt_one_iff.mp hi
    obtain ⟨hthere, hback⟩ := hsucc p hp
    refine ⟨succ p, hthere, ?_⟩
    change (p, sink p, 0) ∈ [(pred (succ p), sink (pred (succ p)), 0)]
    rw [hback]
    exact List.mem_singleton.mpr rfl
  · intro p hp k hk
    obtain rfl := List.mem_singleton.mp hk
    exact ⟨(hpred p hp).1, ⟨rfl, rfl, Nat.one_pos⟩, rfl⟩

/-- **A collection**, and the puts of all its producers. -/
theorem reaches_collect (hgood : ∀ p, ∀ m ∈ makes p, m.Good p) (hn : Counts dtype n)
    {prod : List ℤ} {j : ℕ}
    (hsrc : ((makes q).filterMap Make.srcOf)[j]? = some (prod, dtype, .collect)) {dunits : ℕ}
    (hunits : Counts dtype dunits) (hfits : n ≤ dunits) (sink : ℤ → ℕ)
    (hsink : ∀ p ∈ prod, ((makes p).filterMap Make.sinkChan)[sink p]? =
      some ⟨.pipe, [q], dtype, dunits⟩)
    (hord : ∀ p ∈ prod, ordinal ((((makes q).filterMap Make.srcOf).take j).map Prod.fst) p =
      ordinal (((makes p).filterMap Make.consOf).take (sink p)) q)
    (out : ℤ → List α) (hout : ∀ p ∈ prod, (out p).length = n) {rest : List α}
    (hrest : prod.length * n ≤ rest.length) (mid loc : ℤ → Task R) (next : List α → Task R)
    (hget : loc q = (Task.get j (C.encodeAll rest) n).bind fun bytes =>
      next (C.decodeAll rest.length bytes))
    (hput : ∀ p ∈ prod, loc p = (Task.put (sink p) (C.encodeAll (out p)) n).bind fun _ => mid p) :
    Reaches ((wired makes).exchanges A fun _ => Task.program).step ⟨loc, fun _ => []⟩
      ⟨fun p => if p = q then next (prod.flatMap out ++ rest.drop (prod.length * n))
        else if p ∈ prod then mid p else loc p, fun _ => []⟩ := by
  have hsize := hn.sizeMul_eq
  obtain ⟨hnodup, hapart⟩ : prod.Nodup ∧ q ∉ prod := by
    obtain ⟨m, hm, hmake⟩ := List.mem_filterMap.mp (List.mem_of_getElem? hsrc)
    have hm := hgood q m hm
    cases m with
    | sink => cases hmake
    | src prod' dtype' role =>
      obtain ⟨rfl, -⟩ := Prod.mk.inj (Option.some.inj hmake)
      exact ⟨hm.nodup, hm.apart⟩
  let x (p : ℤ) : Putting ℤ := ⟨sink p, ⟨.pipe, [q], dtype, dunits⟩, C.encodeAll (out p), n⟩
  have hat := atGet_wired hgood hsrc (.inr rfl) (fun h => by cases h) sink (fun p => (x p).ch)
    hsink (fun p _ => List.mem_singleton_self q) hord (C.encodeAll rest) n
    (by
      rw [hsize, Codec.length_encodeAll, ← Nat.mul_assoc]
      exact Nat.mul_le_mul_right _ hrest)
    (by have := hn.pos; omega) fun bytes => next (C.decodeAll rest.length bytes)
  rw [← hget] at hat
  have hputs : ∀ p ∈ prod, AtPut (wired makes) p (loc p) (x p) (mid p) := by
    intro p hp
    rw [hput p hp]
    exact atPut_array hgood hn (hsink p hp)
      ⟨rfl, hunits, hfits, by rw [hout p hp]; exact (Nat.one_mul n).le⟩ (mid p)
  have hgather := reaches_gather (A := A) hat hapart hnodup
    (fun p hp => ⟨hputs p hp, rfl, rfl⟩) rfl
  convert hgather using 2
  funext p
  by_cases hp : p = q
  · have hshare : (prod.flatMap fun p => (x p).share 0) = C.encodeAll (prod.flatMap out) := by
      rw [Codec.encodeAll_flatMap]
      refine List.flatMap_congr fun p hp => List.take_of_length_le ?_
      change (C.encodeAll (out p)).length ≤ sizeMul dtype.bytes (n : ℤ).toNat
      rw [hsize, Codec.length_encodeAll, hout p hp]
    have hbehind : (C.encodeAll rest).drop (prod.length * sizeMul dtype.bytes (n : ℤ).toNat) =
        C.encodeAll (rest.drop (prod.length * n)) := by
      rw [hsize, ← Nat.mul_assoc, Codec.drop_encodeAll]
    have hlen : (prod.flatMap out ++ rest.drop (prod.length * n)).length = rest.length := by
      rw [List.length_append, List.length_flatMap, List.map_congr_left hout, List.map_const',
        List.sum_replicate_nat, List.length_drop]
      omega
    have hdecode := Codec.decodeAll_encodeAll (C := C)
      (prod.flatMap out ++ rest.drop (prod.length * n)) []
    rw [List.append_nil, Codec.encodeAll_append, hlen] at hdecode
    rw [if_pos hp, if_pos hp, hshare]
    simp only [Getting.size, hbehind, hdecode]
  · rw [if_neg hp, if_neg hp]

end Rounds

end Libdsys
