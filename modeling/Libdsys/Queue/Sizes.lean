import Libdsys.Queue.Union

/-!
# Queue/Sizes — the sizes of a pipe's queue and of what is put into it

`bc_sink_create` has its number of units as an `unsigned int`, hands it on as an `int`, and
multiplies it by a `size_t`; a put multiplies another `unsigned int`.

* `sizeMul_eq_iff` — when a product is exact.
* `sizes_exact_iff` — the sizes are exact as long as the products and the `int` are large enough.
-/

open Machinery

namespace Libdsys

/-- An `unsigned int`, as an `int`, as a `size_t`. -/
def intToSize (x : ℕ) : ℕ := if x < 2 ^ 31 then x else 2 ^ 64 - 2 ^ 32 + x

/-- `bc_dtype_create`. -/
def bcDtypeCreate (bytes : ℕ) : Option Dtype :=
  if h : bytes < 1 then none else some (.cust bytes (Nat.pos_of_ne_zero fun h0 => h (by omega)))

/-- `bc_sink_create` of role `PIPE`, down to the queue: `grants` says what sizes are allocated. -/
def pipeCreate (grants : ℕ → Bool) (raw : ℕ → Byte) (dtype : Dtype) (bunits : ℕ) : Option Mc121 :=
  let bytes := sizeMul (intToSize bunits) dtype.bytes
  if grants bytes then some (mc121Create raw bytes) else none

/-- `__bc_p_pipe`: a turn of the loop of its put. -/
def pipePut (dtype : Dtype) (q : Mc121) (loc : List Byte) (du : ℕ) : Option (ℤ × Mc121) := do
  let bs ← readAt loc 0 (sizeMul dtype.bytes du)
  putqMc121 q bs bs.length

/-- It is the queue of a channel. -/
theorem create_pipe {P : Type} (fresh : Fresh P) (p : P) (c : ℕ) {ch : SinkChan P}
    (h : ch.role = .pipe) : pipeCreate (fun _ => true) (fresh.mem p c 0) ch.dtype ch.dunits =
      (Queue.create fresh p c ch).ring? 0 := by
  rw [Queue.create, h]
  rfl

/-- **Exact sizes**: no conversion and no product changes a value, the queue is as large as its
units, and each put that is accepted stores all of its units. -/
structure SizesExact (dtype : Dtype) (bunits du : ℕ) : Prop where
  converts : intToSize bunits = bunits
  product : sizeMul dtype.bytes du = du * dtype.bytes
  size : ∀ grants raw q, pipeCreate grants raw dtype bunits = some q →
    q.size = bunits * dtype.bytes
  stored : ∀ grants raw q s loc q', pipeCreate grants raw dtype bunits = some q →
    Reaches mc121Step ⟨q, [], []⟩ s → pipePut dtype s.q loc du = some (0, q') →
    q'.bytesInbuff = s.q.bytesInbuff + du * dtype.bytes ∧
      q'.contents = s.q.contents ++ loc.take (du * dtype.bytes)

/-! ## Products and conversions -/

theorem sizeMul_eq_iff {a b : ℕ} : sizeMul a b = a * b ↔ a * b < 2 ^ 64 :=
  Nat.mod_eq_iff_lt (by decide)

theorem intToSize_eq_iff {x : ℕ} : intToSize x = x ↔ x < 2 ^ 31 := by
  rw [intToSize]
  split <;> omega

theorem bytes_of_create {b : ℕ} {dtype : Dtype} (h : bcDtypeCreate b = some dtype) :
    b = dtype.bytes := by
  rw [bcDtypeCreate] at h
  split at h
  · cases h
  · obtain rfl := Option.some.inj h
    rfl

/-! ## Puts -/

variable {dtype : Dtype} {grants : ℕ → Bool} {raw : ℕ → Byte} {bunits du : ℕ} {q : Mc121}

theorem pipeCreate_eq (h : pipeCreate grants raw dtype bunits = some q) :
    q = mc121Create raw (sizeMul (intToSize bunits) dtype.bytes) := by
  rw [pipeCreate] at h
  split at h
  · exact (Option.some.inj h).symm
  · cases h

/-- Whatever was put and sent, the queue is well formed. -/
theorem wf_of_reaches {S : ℕ} {s : Mc121State}
    (h : Reaches mc121Step ⟨mc121Create raw S, [], []⟩ s) : s.q.Wf := by
  obtain ⟨calls, hcalls⟩ := h
  obtain ⟨s', hs', hrep⟩ := (represents_mc121Create raw S).run calls
  obtain rfl := Option.some.inj (hcalls.symm.trans hs')
  exact hrep.wf

/-- **A put that is accepted stores as many bytes as its product says.** -/
theorem stored_of_pipePut (hq : q.Wf) {loc : List Byte} {q' : Mc121}
    (h : pipePut dtype q loc du = some (0, q')) :
    q'.bytesInbuff = q.bytesInbuff + sizeMul dtype.bytes du ∧
      q'.contents = q.contents ++ loc.take (sizeMul dtype.bytes du) := by
  obtain ⟨bs, hbs, hput⟩ := Option.bind_eq_some_iff.mp h
  have hlength : bs.length = sizeMul dtype.bytes du := length_of_readAt hbs
  have htake : loc.take (sizeMul dtype.bytes du) = bs :=
    Option.some.inj ((Option.ite_none_right_eq_some.mp hbs).2)
  have hin := hq.inbuff
  rw [putqMc121_eq hq] at hput
  split at hput
  · cases Option.some.inj hput
  · next hroom =>
    obtain rfl : q.pushed bs = q' := congrArg Prod.snd (Option.some.inj hput)
    rw [htake, ← hlength]
    exact ⟨rfl, hq.contents_pushed (by omega)⟩

/-- **The sizes are exact as long as** the units are an `int`, and neither product wraps. -/
theorem sizes_exact_iff {b : ℕ} {dtype : Dtype} (h : bcDtypeCreate b = some dtype)
    (bunits du : ℕ) : SizesExact dtype bunits du ↔
      bunits < 2 ^ 31 ∧ bunits * b < 2 ^ 64 ∧ du * b < 2 ^ 64 := by
  obtain rfl := bytes_of_create h
  constructor
  · intro hexact
    have hint := hexact.converts
    have hsize : sizeMul (intToSize bunits) dtype.bytes = bunits * dtype.bytes :=
      hexact.size (fun _ => true) (fun _ => 0) _ rfl
    have hput := hexact.product
    rw [hint] at hsize
    rw [Nat.mul_comm du] at hput ⊢
    exact ⟨intToSize_eq_iff.mp hint, sizeMul_eq_iff.mp hsize, sizeMul_eq_iff.mp hput⟩
  · rintro ⟨hint, hsize, hput⟩
    rw [Nat.mul_comm du] at hput
    have hconverts := intToSize_eq_iff.mpr hint
    have hproduct := sizeMul_eq_iff.mpr hput
    refine ⟨hconverts, hproduct.trans (Nat.mul_comm _ _), fun grants raw q hq => ?_, ?_⟩
    · rw [pipeCreate_eq hq, hconverts, sizeMul_eq_iff.mpr hsize]
      rfl
    · intro grants raw q s loc q' hq hreaches hstored
      rw [pipeCreate_eq hq] at hreaches
      have hbytes := stored_of_pipePut (wf_of_reaches hreaches) hstored
      rwa [hproduct, Nat.mul_comm] at hbytes

/-- Four units of 8 bytes, and puts of one. -/
theorem sizes_exact_iff_words : SizesExact (.cust 8 (by decide)) 4 1 :=
  (sizes_exact_iff (b := 8) rfl 4 1).mpr (by decide)

/-- A unit of more than 2 ^ 62 bytes: four of them make a queue of four bytes, and a put of four of
them stores four bytes. -/
theorem wrapped_size : ¬SizesExact (.cust (2 ^ 62 + 1) (by decide)) 4 4 ∧
    ∃ q q', pipeCreate (fun _ => true) (fun _ => 0) (.cust (2 ^ 62 + 1) (by decide)) 4 = some q ∧
      q.size = 4 ∧ pipePut (.cust (2 ^ 62 + 1) (by decide)) q [1, 2, 3, 4] 4 = some (0, q') ∧
      q'.bytesInbuff = 4 :=
  ⟨fun h => absurd h.product (by decide), _, _, rfl, by decide, rfl, by decide⟩

end Libdsys
