import Libdsys.Machinery.Bits

/-!
# Fft/Permute — the input permutation of the butterflies

A coefficient goes where the reversed bits of its index say.  `bc_bit_reverse` shifts the bits of an
`unsigned int` out at one end and into another word behind those that are there.

* `bit_reverse_spec` — what it computes, and that the permutations made of it are permutations.
-/

open Machinery

namespace Libdsys

/-- `bc_bit_reverse`; nothing is shifted for an `nbits` that is not positive. -/
def bcBitReverse (num : BitVec 32) (nbits : ℤ) : BitVec 32 := (shiftOver nbits.toNat num).2

/-- The `bit_reverse` of the FFT examples, which has the same body. -/
def bitReverse (num : BitVec 32) (nbits : ℤ) : BitVec 32 := (shiftOver nbits.toNat num).2

/-- How the coefficients are divided: their number is an `int` and a power of two, and every node
has as many of them. -/
structure Division where
  numNodes : ℕ
  ncoeff : ℕ
  nbits : ℕ
  ncoeff_eq : ncoeff = 2 ^ nbits
  ncoeff_lt : ncoeff < 2 ^ 31
  dvd : numNodes ∣ ncoeff

namespace Division

/-- The number of coefficients per node. -/
def ncoeffNode (d : Division) : ℕ := d.ncoeff / d.numNodes

/-- `current`, for coefficient `i` of node `rank`. -/
def current (d : Division) (rank i : ℕ) : BitVec 32 := BitVec.ofNat 32 (rank * d.ncoeffNode + i)

/-- `permute`: `node[i]` at node `rank`. -/
def node (d : Division) (rank i : ℕ) : ℕ :=
  (bitReverse (d.current rank i) d.nbits).toNat / d.ncoeffNode

/-- `permute`: `index[i]` at node `rank`. -/
def index (d : Division) (rank i : ℕ) : ℕ :=
  (bitReverse (d.current rank i) d.nbits).toNat % d.ncoeffNode

/-- The places of the coefficients: a node, and an index there. -/
def places (d : Division) : Set (ℕ × ℕ) := {x | x.1 < d.numNodes ∧ x.2 < d.ncoeffNode}

end Division

variable {nbits : ℕ}

theorem getLsbD_bcBitReverse (hn : nbits ≤ 32) (num : BitVec 32) (j : ℕ) :
    (bcBitReverse num nbits).getLsbD j = (decide (j < nbits) && num.getLsbD (nbits - 1 - j)) :=
  getLsbD_shiftOver hn num j

theorem bcBitReverse_lt (hn : nbits ≤ 32) (num : BitVec 32) :
    (bcBitReverse num nbits).toNat < 2 ^ nbits := toNat_shiftOver_lt hn num

theorem bcBitReverse_bcBitReverse (hn : nbits ≤ 32) {num : BitVec 32}
    (hnum : num.toNat < 2 ^ nbits) : bcBitReverse (bcBitReverse num nbits) nbits = num :=
  reverse_reverse hn hnum

namespace Division

variable (d : Division)

theorem numNodes_mul : d.numNodes * d.ncoeffNode = 2 ^ d.nbits := by
  rw [ncoeffNode, Nat.mul_div_cancel' d.dvd, d.ncoeff_eq]

theorem nbits_le : d.nbits ≤ 32 := by
  have hlt := d.ncoeff_lt
  rw [d.ncoeff_eq] at hlt
  have h31 : d.nbits < 31 := (Nat.pow_lt_pow_iff_right Nat.one_lt_two).mp hlt
  omega

variable {d} {rank i : ℕ}

/-- A place is a number below that of the coefficients. -/
theorem toNat_current (hx : (rank, i) ∈ d.places) :
    (d.current rank i).toNat = rank * d.ncoeffNode + i ∧
      (d.current rank i).toNat < 2 ^ d.nbits := by
  have hlt : rank * d.ncoeffNode + i < 2 ^ d.nbits := by
    calc rank * d.ncoeffNode + i
        < (rank + 1) * d.ncoeffNode := by rw [Nat.succ_mul]; exact Nat.add_lt_add_left hx.2 _
      _ ≤ d.numNodes * d.ncoeffNode := Nat.mul_le_mul_right _ hx.1
      _ = 2 ^ d.nbits := d.numNodes_mul
  have hword : rank * d.ncoeffNode + i < 2 ^ 32 :=
    hlt.trans_le (Nat.pow_le_pow_right Nat.two_pos d.nbits_le)
  rw [current, BitVec.toNat_ofNat, Nat.mod_eq_of_lt hword]
  exact ⟨rfl, hlt⟩

/-- Where the coefficient goes is read off the reversed word. -/
theorem current_node (d : Division) (rank i : ℕ) :
    d.current (d.node rank i) (d.index rank i) = bitReverse (d.current rank i) d.nbits := by
  rw [current, node, index, Nat.div_add_mod', BitVec.ofNat_toNat, BitVec.setWidth_eq]

/-- A coefficient goes to a place. -/
theorem node_mem (hx : (rank, i) ∈ d.places) : (d.node rank i, d.index rank i) ∈ d.places := by
  have hlt : (bitReverse (d.current rank i) d.nbits).toNat < d.numNodes * d.ncoeffNode :=
    d.numNodes_mul ▸ bcBitReverse_lt d.nbits_le _
  exact ⟨Nat.div_lt_of_lt_mul (Nat.mul_comm _ _ ▸ hlt), Nat.mod_lt _ (Nat.zero_lt_of_lt hx.2)⟩

/-- **What goes to a place comes from where that place goes.** -/
theorem node_node (hx : (rank, i) ∈ d.places) :
    (d.node (d.node rank i) (d.index rank i), d.index (d.node rank i) (d.index rank i)) =
      (rank, i) := by
  obtain ⟨hcurrent, hlt⟩ := toNat_current hx
  have hback : bitReverse (bitReverse (d.current rank i) d.nbits) d.nbits = d.current rank i :=
    bcBitReverse_bcBitReverse d.nbits_le hlt
  have hdiv : (rank * d.ncoeffNode + i) / d.ncoeffNode = rank := by
    rw [Nat.add_comm, Nat.add_mul_div_right _ _ (Nat.zero_lt_of_lt hx.2), Nat.div_eq_of_lt hx.2,
      Nat.zero_add]
  have hmod : (rank * d.ncoeffNode + i) % d.ncoeffNode = i := Nat.mul_add_mod_of_lt hx.2
  have hreverse : bitReverse (d.current (d.node rank i) (d.index rank i)) d.nbits =
      d.current rank i := by rw [current_node, hback]
  refine Prod.ext ?_ ?_
  · exact (congrArg (·.toNat / d.ncoeffNode) hreverse).trans (hcurrent.symm ▸ hdiv)
  · exact (congrArg (·.toNat % d.ncoeffNode) hreverse).trans (hcurrent.symm ▸ hmod)

end Division

/-- **Bit reversal**: bit `j` of the result is bit `nbits - 1 - j`, and there are no bits above; so
that it is an involution and a permutation of the numbers below `2 ^ nbits` — and so is where the
FFT sends its coefficients, over all nodes and the indices at them. -/
theorem bit_reverse_spec {nbits : ℕ} (hn : nbits ≤ 32) :
    (∀ num : BitVec 32,
      (∀ j < nbits, (bcBitReverse num nbits).getLsbD j = num.getLsbD (nbits - 1 - j)) ∧
      ∀ j, nbits ≤ j → (bcBitReverse num nbits).getLsbD j = false) ∧
    (∀ num, num.toNat < 2 ^ nbits → bcBitReverse (bcBitReverse num nbits) nbits = num) ∧
    Set.BijOn (bcBitReverse · nbits) {num | num.toNat < 2 ^ nbits} {num | num.toNat < 2 ^ nbits} ∧
    ∀ d : Division, d.nbits = nbits →
      Set.BijOn (fun x => (d.node x.1 x.2, d.index x.1 x.2)) d.places d.places := by
  refine ⟨fun num => ⟨fun j hj => ?_, fun j hj => ?_⟩,
    fun num hnum => bcBitReverse_bcBitReverse hn hnum, ?_, ?_⟩
  · rw [getLsbD_bcBitReverse hn, decide_eq_true hj, Bool.true_and]
  · rw [getLsbD_bcBitReverse hn, decide_eq_false (Nat.not_lt.mpr hj), Bool.false_and]
  · have hback : Set.LeftInvOn (bcBitReverse · nbits) (bcBitReverse · nbits)
        {num | num.toNat < 2 ^ nbits} := fun num hnum => bcBitReverse_bcBitReverse hn hnum
    have hmaps : Set.MapsTo (bcBitReverse · nbits) {num | num.toNat < 2 ^ nbits}
        {num | num.toNat < 2 ^ nbits} := fun num _ => bcBitReverse_lt hn num
    exact Set.InvOn.bijOn ⟨hback, hback⟩ hmaps hmaps
  · rintro d -
    have hback : Set.LeftInvOn (fun x : ℕ × ℕ => (d.node x.1 x.2, d.index x.1 x.2))
        (fun x => (d.node x.1 x.2, d.index x.1 x.2)) d.places := fun x hx => Division.node_node hx
    have hmaps : Set.MapsTo (fun x : ℕ × ℕ => (d.node x.1 x.2, d.index x.1 x.2)) d.places
        d.places := fun x hx => Division.node_mem hx
    exact Set.InvOn.bijOn ⟨hback, hback⟩ hmaps hmaps

/-- All the bits of a word. -/
theorem bit_reverse_spec_word : bcBitReverse (bcBitReverse 0x80000001#32 32) 32 = 0x80000001#32 :=
  (@bit_reverse_spec 32 le_rfl).2.1 _ (by decide)

end Libdsys
