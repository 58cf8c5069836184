import Libdsys.Queue.Farmn

/-!
# Queue/NoCopyProgress — when a no-copy queue stops

A put publishes its slot before the next one is free, so while it waits its unit is in nobody's
reach.  Counting carries the argument, not the log: `Flow` says that a slot's counter never exceeds
the links standing at the slot and the reads still due one slot earlier.  The slot the producer
waits for is the oldest, nothing is due before it — so a link stands there, and with a second slot
it can read.  The count of a put plays no part, not even where it overflows the counter.

* `StoreInvariant.reaches` — what each section keeps of the store, every run keeps.
* `Flow.exists_ready` — with two slots somebody is ready whenever the producer is not.
* `no_copy_stuck_iff` — both queues.
-/

open Machinery

namespace Libdsys

/-! ## The links at a slot -/

section Links

variable {ι : Type} [Fintype ι]

/-- How many links stand at slot `s`. -/
def linksAt (link : ι → Vptr) (s : ℕ) : ℕ := (Finset.univ.filter fun k => (link k).rcidx = s).card

theorem linksAt_pos_iff {link : ι → Vptr} {s : ℕ} :
    0 < linksAt link s ↔ ∃ k, (link k).rcidx = s := by
  rw [linksAt, Finset.card_pos]
  exact ⟨fun ⟨k, hk⟩ => ⟨k, (Finset.mem_filter.mp hk).2⟩,
    fun ⟨k, hk⟩ => ⟨k, Finset.mem_filter.mpr ⟨Finset.mem_univ k, hk⟩⟩⟩

theorem linksAt_const (v : Vptr) : linksAt (fun _ : ι => v) v.rcidx = Fintype.card ι := by
  rw [linksAt, Finset.filter_true_of_mem fun _ _ => rfl, Finset.card_univ]

variable [DecidableEq ι] {link : ι → Vptr} {k : ι} {v : Vptr}

/-- A link that moves to a slot is one more there… -/
theorem linksAt_update_self (h : (link k).rcidx ≠ v.rcidx) :
    linksAt (Function.update link k v) v.rcidx = linksAt link v.rcidx + 1 := by
  have hins : (Finset.univ.filter fun j => (Function.update link k v j).rcidx = v.rcidx)
      = insert k (Finset.univ.filter fun j => (link j).rcidx = v.rcidx) := by
    ext j
    rcases eq_or_ne j k with rfl | hne
    · simp
    · simp [hne]
  rw [linksAt, hins, Finset.card_insert_of_notMem (by simp [h]), linksAt]

/-- …one less where it came from, and none elsewhere. -/
theorem linksAt_update_of_ne {s : ℕ} (hs : v.rcidx ≠ s) :
    linksAt (Function.update link k v) s
      = linksAt link s - if (link k).rcidx = s then 1 else 0 := by
  have hera : (Finset.univ.filter fun j => (Function.update link k v j).rcidx = s)
      = (Finset.univ.filter fun j => (link j).rcidx = s).erase k := by
    ext j
    rcases eq_or_ne j k with rfl | hne
    · simp [hs]
    · simp [hne]
  rw [linksAt, hera, linksAt]
  split_ifs with hk
  · exact Finset.card_erase_of_mem (by simp [hk])
  · exact congrArg Finset.card (Finset.erase_eq_of_notMem (by simp [hk]))

end Links

/-! ## The flow of the counters -/

/-- The counter of slot `s`. -/
def Nmc12m.counter (q : Nmc12m) (s : ℕ) : ℕ := q.rc.getD s 0

section Flow

variable {ι : Type} [Fintype ι] {du size c : ℕ} {h : Option ℕ} {q : Nmc12m} {link : ι → Vptr}

/-- What slot `t` is to deliver: between puts, the producer's slot counts as filled. -/
def owed (h : Option ℕ) (c : ℕ) (q : Nmc12m) (t : ℕ) : ℕ :=
  if h = none ∧ t = q.vptr.rcidx then c else q.counter t

/-- The reads still due at slot `s` that pass a link on to the next one; the producer's slot passes
none on. -/
def passes (q : Nmc12m) (s : ℕ) : ℕ := if s = q.vptr.rcidx then 0 else q.counter s

/-- **The flow invariant**, for puts that store `c`; `h` is the index a put is waiting for. -/
structure Flow (du size c : ℕ) (h : Option ℕ) (q : Nmc12m) (link : ι → Vptr) : Prop where
  qdu : q.du = du
  qsize : q.size = size
  len : q.mem.length = du * size
  ends : q.memEnd = du * size
  rclen : du ≤ q.rc.length
  rcidx : q.vptr.rcidx < du
  link_lt : ∀ k, (link k).rcidx < du
  link_var : ∀ k, (link k).var = (link k).rcidx * size
  index : ∀ i, h = some i → i = (q.vptr.rcidx + 1) % du ∧ q.counter q.vptr.rcidx = c
  edge : ∀ s, s < du →
    owed h c q ((s + 1) % du) ≤ linksAt link ((s + 1) % du) + passes q s

namespace Flow

theorem counter_set {q : Nmc12m} {s : ℕ} (hs : s < q.rc.length) (n t : ℕ) :
    ({ q with rc := q.rc.set s n } : Nmc12m).counter t = if t = s then n else q.counter t := by
  rw [Nmc12m.counter, Nmc12m.counter, List.getD_eq_getElem?_getD, List.getElem?_set]
  split_ifs <;> first | rfl | omega

theorem counter_eq {q : Nmc12m} {s n : ℕ} (hs : q.rc[s]? = some n) : q.counter s = n := by
  rw [Nmc12m.counter, List.getD_eq_getElem?_getD, hs, Option.getD_some]

/-- A slot has one slot before it. -/
theorem succ_mod_inj {s t : ℕ} (hs : s < du) (ht : t < du) (h : (s + 1) % du = (t + 1) % du) :
    s = t := by
  have hmod : s ≡ t [MOD du] := Nat.ModEq.add_right_cancel' 1 h
  rwa [Nat.ModEq, Nat.mod_eq_of_lt hs, Nat.mod_eq_of_lt ht] at hmod

/-- With a second slot, the next slot is another one. -/
theorem succ_mod_ne {s : ℕ} (hs : s < du) (hdu : 2 ≤ du) : (s + 1) % du ≠ s := by
  rcases Nat.eq_or_lt_of_le (Nat.succ_le_of_lt hs) with heq | hlt
  · rw [Nat.succ_eq_add_one] at heq
    rw [heq, Nat.mod_self]
    omega
  · rw [Nat.mod_eq_of_lt hlt]
    omega

theorem start (rawMem : ℕ → Byte) {rc : List ℕ} (hrc : du ≤ rc.length)
    (hzero : ∀ s, 1 ≤ s → s < du → rc[s]? = some 0) (hdu : 0 < du) (hfits : du * size < 2 ^ 64)
    (hc : c ≤ Fintype.card ι) :
    Flow du size c none
      ⟨rc, (List.range (sizeMul size du)).map rawMem, sizeMul size du, size, du, linkVptr⟩
      (fun _ : ι => linkVptr) where
  qdu := rfl
  qsize := rfl
  len := by simp [sizeMul_units hfits]
  ends := sizeMul_units hfits
  rclen := hrc
  rcidx := hdu
  link_lt _ := hdu
  link_var _ := (Nat.zero_mul size).symm
  index i hi := nomatch hi
  edge s hs := by
    have hlt : (s + 1) % du < du := Nat.mod_lt _ hdu
    rcases Nat.eq_zero_or_pos ((s + 1) % du) with h0 | hpos
    · rw [h0, owed, if_pos ⟨rfl, rfl⟩]
      exact (hc.trans (linksAt_const linkVptr).ge).trans (Nat.le_add_right _ _)
    · rw [owed, if_neg fun h => hpos.ne' h.2, counter_eq (hzero _ hpos hlt)]
      exact Nat.zero_le _

theorem fill (hf : Flow du size c none q link) {off : ℕ} {bs : List Byte} {q' : Nmc12m}
    (hq : nmc12mFill q off bs = some q') : Flow du size c none q' link := by
  rw [nmc12mFill] at hq
  split at hq
  case isFalse => cases hq
  rw [writeAt] at hq
  split at hq
  case isFalse => cases hq
  rename_i hin
  obtain rfl := Option.some.inj hq
  exact { hf with len := (length_overlay hin).trans hf.len }

/-- What a send that wrote a unit found, and what it left. -/
theorem eq_of_sent {v vptr : Vptr} {fd fd' : List Byte} {condRecv : Bool} {q' : Nmc12m}
    (hq : nmc12mSend q fd v condRecv = some (.sent (q', vptr) fd')) :
    0 < q.counter v.rcidx ∧ q.vptr.rcidx ≠ v.rcidx ∧
      q' = { q with rc := q.rc.set v.rcidx (q.counter v.rcidx - 1) } ∧
      vptr = ⟨advance v.var q.size q.memEnd, (v.rcidx + 1) % q.du⟩ := by
  simp only [nmc12mSend, Option.bind_eq_bind, Option.bind_eq_some_iff] at hq
  obtain ⟨n, hn, hq⟩ := hq
  rw [counter_eq hn]
  split at hq
  case isFalse =>
    cases condRecv <;> exact absurd hq (by simp)
  rename_i hguard
  obtain ⟨w, -, hq⟩ := Option.bind_eq_some_iff.mp hq
  obtain ⟨hpair, -⟩ := SendOutcome.sent.inj (Option.some.inj hq)
  obtain ⟨rfl, rfl⟩ := Prod.mk.inj hpair
  exact ⟨Nat.pos_of_ne_zero hguard.1, hguard.2, rfl, rfl⟩

/-- Entering a put fills the slot that counted as filled. -/
theorem enter (hf : Flow du size c none q link) {m : ℕ} (hm : m % 2 ^ 16 = c) {q' : Nmc12m}
    {i : ℕ} (hq : nmc12mPutEnter q m = some (q', i)) : Flow du size c (some i) q' link := by
  have hp := hf.rcidx.trans_le hf.rclen
  rw [nmc12mPutEnter, if_pos hp, hm] at hq
  obtain ⟨rfl, rfl⟩ := Prod.mk.inj (Option.some.inj hq)
  have hcounter : ∀ t, Nmc12m.counter ⟨q.rc.set q.vptr.rcidx c, q.mem, q.memEnd, q.size, q.du,
      ⟨advance q.vptr.var q.size q.memEnd, q.vptr.rcidx⟩⟩ t
        = if t = q.vptr.rcidx then c else q.counter t := fun t => counter_set hp c t
  refine
    { hf with
      rclen := by simpa using hf.rclen
      index := fun i hi => ⟨?_, (hcounter _).trans (if_pos rfl)⟩
      edge := fun s hs => ?_ }
  · rw [← Option.some.inj hi, hf.qdu]
  · have hold := hf.edge s hs
    rw [owed, passes] at hold ⊢
    rw [hcounter, hcounter]
    split_ifs at hold ⊢ <;> simp_all

/-- A put that returns leaves a full slot behind an empty one. -/
theorem check {i : ℕ} (hf : Flow du size c (some i) q link) {q' : Nmc12m}
    (hq : nmc12mPutCheck q i = some (some q')) : Flow du size c none q' link := by
  obtain ⟨n, hn, hq⟩ := Option.map_eq_some_iff.mp hq
  split at hq
  case isFalse => exact nomatch hq
  rename_i h0
  obtain rfl := Option.some.inj hq
  obtain ⟨hi, hc⟩ := hf.index i rfl
  have hzero : q.counter i = 0 := (counter_eq hn).trans h0
  have hilt : i < du := hi ▸ Nat.mod_lt _ (Nat.zero_lt_of_lt hf.rcidx)
  refine { hf with rcidx := hilt, index := fun j hj => (nomatch hj), edge := fun s hs => ?_ }
  have hold := hf.edge s hs
  rcases eq_or_ne s q.vptr.rcidx with rfl | hne
  · -- the edge out of the slot just filled: full, unless it is the very slot
    rw [← hi, owed, if_pos ⟨rfl, rfl⟩, passes]
    change c ≤ _ + if q.vptr.rcidx = i then 0 else q.counter q.vptr.rcidx
    split_ifs with heq
    · rw [heq, hzero] at hc
      omega
    · omega
  · have ht : (s + 1) % du ≠ i := fun ht => hne (succ_mod_inj hs hf.rcidx (ht.trans hi))
    rw [owed, if_neg fun h => Option.some_ne_none i h.1, passes, if_neg hne] at hold
    rw [owed, if_neg fun h => ht h.2, passes]
    change q.counter _ ≤ _ + if s = i then 0 else q.counter s
    split_ifs with hsi
    · subst hsi
      rwa [hzero] at hold
    · exact hold

/-- A send moves a link on, and the read it was due with it. -/
theorem send [DecidableEq ι] (hf : Flow du size c h q link) {k : ι} {fd fd' : List Byte}
    {condRecv : Bool} {q' : Nmc12m} {vptr : Vptr}
    (hq : nmc12mSend q fd (link k) condRecv = some (.sent (q', vptr) fd')) :
    Flow du size c h q' (Function.update link k vptr) := by
  obtain ⟨hn, hne, hq', hvptr⟩ := eq_of_sent hq
  rw [hf.qdu] at hvptr
  have hidx : vptr.rcidx = ((link k).rcidx + 1) % du := congrArg Vptr.rcidx hvptr
  subst hq'
  have ha := hf.link_lt k
  have hp := hf.rcidx
  have hrc := ha.trans_le hf.rclen
  have hb : ((link k).rcidx + 1) % du ≠ (link k).rcidx := succ_mod_ne ha (by omega)
  refine
    { hf with
      rclen := by simpa using hf.rclen
      link_lt := fun j => ?_
      link_var := fun j => ?_
      index := fun i hi => ?_
      edge := fun s hs => ?_ }
  · rcases eq_or_ne j k with rfl | hjk
    · rw [Function.update_self, hidx]
      exact Nat.mod_lt _ (Nat.zero_lt_of_lt ha)
    · rw [Function.update_of_ne hjk]
      exact hf.link_lt j
  · rcases eq_or_ne j k with rfl | hjk
    · have hadv := advance_slot (j := (link j).rcidx) (Nat.zero_lt_of_lt ha) size
      rw [Nat.mod_eq_of_lt ha] at hadv
      rw [Function.update_self, hvptr, hf.link_var, hf.qsize, hf.ends, hadv]
    · rw [Function.update_of_ne hjk]
      exact hf.link_var j
  · obtain ⟨hi', hc⟩ := hf.index i hi
    exact ⟨hi', (counter_set hrc _ _).trans ((if_neg hne).trans hc)⟩
  · have hold := hf.edge s hs
    have hcounter := counter_set hrc (q.counter (link k).rcidx - 1)
    rw [owed, passes] at hold ⊢
    rw [hcounter, hcounter]
    rcases eq_or_ne s (link k).rcidx with rfl | hsa
    · -- the edge the link takes: one more stands at its end, one less is due at its start
      have hmove := linksAt_update_self (hidx.symm ▸ hb.symm)
      rw [hidx] at hmove
      rw [hmove, if_neg hb, if_neg hne.symm, if_pos rfl]
      rw [if_neg hne.symm] at hold
      exact hold.trans (by omega)
    · have hsb : vptr.rcidx ≠ (s + 1) % du := fun hsb =>
        hsa (succ_mod_inj hs ha (hsb.symm.trans hidx))
      have hstay : linksAt (Function.update link k vptr) ((s + 1) % du) = _ :=
        linksAt_update_of_ne hsb
      have hstand : 0 < linksAt link (link k).rcidx := linksAt_pos_iff.mpr ⟨k, rfl⟩
      rw [hstay, if_neg hsa]
      dsimp only
      rcases eq_or_ne ((s + 1) % du) (link k).rcidx with hta | hta
      · rw [hta, if_neg fun h => hne.symm h.2] at hold
        rw [hta, if_neg fun h => hne.symm h.2, if_pos rfl, if_pos rfl]
        omega
      · rw [if_neg hta, if_neg hta.symm]
        exact hold

/-- The lock sections keep the flow. -/
theorem storeInvariant [DecidableEq ι] (du size m : ℕ) :
    StoreInvariant (nmc12mOps ι) m fun h s => Flow du size (m % 2 ^ 16) h s.1 s.2 where
  fill {s off bs s'} hf hs := by
    obtain ⟨q', hq', rfl⟩ := Option.map_eq_some_iff.mp hs
    exact hf.fill hq'
  enter {s s' i} hf hs := by
    obtain ⟨⟨q', j⟩, hq', heq⟩ := Option.map_eq_some_iff.mp hs
    obtain ⟨rfl, rfl⟩ := Prod.mk.inj heq
    exact hf.enter rfl hq'
  check {s s' i} hf hs := by
    obtain ⟨o, ho, heq⟩ := Option.map_eq_some_iff.mp hs
    obtain ⟨q', rfl, rfl⟩ := Option.map_eq_some_iff.mp heq
    exact hf.check ho
  send {h s k fd condRecv s' wrote} hf hs := by
    obtain ⟨o, ho, heq⟩ := Option.map_eq_some_iff.mp hs
    cases o with
    | sent r fd' =>
      obtain ⟨rfl, rfl⟩ := SendOutcome.sent.inj heq
      exact hf.send ho
    | refused _ | wait => exact nomatch heq

/-- **With two slots, a link can read whenever the producer has to wait.** -/
theorem exists_ready {i : ℕ} (hf : Flow du size c (some i) q link) (hdu : 2 ≤ du)
    (hwait : nmc12mPutCheck q i = some none) (fd : List Byte) (condRecv : Bool) :
    ∃ k r fd', nmc12mSend q fd (link k) condRecv = some (.sent r fd') := by
  obtain ⟨n, hn, hpos⟩ := Option.map_eq_some_iff.mp hwait
  split at hpos
  case isTrue => exact nomatch hpos
  rename_i hne
  obtain ⟨rfl, -⟩ := hf.index i rfl
  have hedge := hf.edge q.vptr.rcidx hf.rcidx
  rw [owed, if_neg fun h => (nomatch h.1), counter_eq hn, passes, if_pos rfl, Nat.add_zero] at hedge
  obtain ⟨k, hk⟩ := linksAt_pos_iff.mp (Nat.lt_of_lt_of_le (Nat.pos_of_ne_zero hne) hedge)
  have hslot : (link k).var + q.size ≤ q.mem.length := by
    rw [hf.link_var, hf.qsize, hf.len]
    exact slot_le size (hf.link_lt k)
  exact ⟨k, _, _, nmc12mSend_eq (hk ▸ hn) hne (hk ▸ (succ_mod_ne hf.rcidx hdu).symm) hslot
    fd condRecv⟩

/-- With one slot, no link can read. -/
theorem not_ready (hf : Flow 1 size c h q link) {k : ι} {fd fd' : List Byte} {condRecv : Bool}
    {q' : Nmc12m} {vptr : Vptr} :
    nmc12mSend q fd (link k) condRecv ≠ some (.sent (q', vptr) fd') := by
  intro hq
  obtain ⟨-, hne, -⟩ := eq_of_sent hq
  have := hf.rcidx
  have := hf.link_lt k
  omega

/-- With one slot, a put waits for the slot it has just filled. -/
theorem putCheck_one {i : ℕ} (hf : Flow 1 size c (some i) q link) :
    nmc12mPutCheck q i = some none ↔ c ≠ 0 := by
  obtain ⟨hi, hc⟩ := hf.index i rfl
  have hp := hf.rcidx
  have hip : i = q.vptr.rcidx := by omega
  have hlt : i < q.rc.length := by have := hf.rclen; omega
  have hci : q.rc[i]? = some c := by
    have hget := List.getElem?_eq_getElem hlt
    rw [hget, ← hc, ← hip, counter_eq hget]
  rw [nmc12mPutCheck, hci, Option.map_some, Option.some.injEq]
  split_ifs with h0 <;> simp [h0]

end Flow

variable [DecidableEq ι] {σ T : Type} [DecidableEq T] {ops : SlotOps σ T} {m cnt : ℕ}
  {cur : T → ι} {view : σ → Linked ι}

omit [Fintype ι] [DecidableEq T] in
/-- A put waits at a store exactly when it waits at its view. -/
theorem putCheck_wait_iff (V : Views ops cnt (nmc12mOps ι) m cur view) {q : σ} {i : ℕ} :
    ops.putCheck q i = some none ↔ nmc12mPutCheck (view q).1 i = some none := by
  have hmap := V.putCheck q i
  constructor <;> intro hwait
  · rw [hwait] at hmap
    obtain ⟨o, ho, heq⟩ := Option.map_eq_some_iff.mp hmap.symm
    rw [ho, Option.map_eq_none_iff.mp heq]
  · simp only [nmc12mOps, hwait, Option.map_some, Option.map_none] at hmap
    obtain ⟨o, ho, heq⟩ := Option.map_eq_some_iff.mp hmap
    rw [ho, Option.map_eq_none_iff.mp heq]

section Stuck

variable (V : Views ops cnt (nmc12mOps ι) m cur view) {size : ℕ} {q₀ : σ}

include V

/-- With two slots or more, somebody is ready while the producer sleeps. -/
theorem of_stuck (hcur : Function.Surjective cur)
    (hstart : Flow du size (m % 2 ^ 16) none (view q₀).1 (view q₀).2) {s : NoCopy σ T}
    (hs : Reaches (NoCopy.step ops cnt) (NoCopy.start q₀) s) (hstuck : s.Stuck ops) :
    du = 1 ∧ m % 2 ^ 16 ≠ 0 := by
  obtain ⟨hasleep, hready⟩ := hstuck
  have hkept := (V.storeInvariant (Flow.storeInvariant du size m)).reaches hstart hs
  obtain ⟨i, hi⟩ : ∃ i, s.producer = .asleep i := by
    cases hp : s.producer with
    | asleep i => exact ⟨i, rfl⟩
    | idle | woken _ => exact absurd hasleep (by simp [hp])
  have hflow := hkept.store
  rw [hi] at hflow
  have hwait := (putCheck_wait_iff V).mp (hkept.asleep i hi)
  have hdu : du = 1 := by
    have hpos := hflow.rcidx
    by_contra hne
    obtain ⟨k, r, fd', hk⟩ := hflow.exists_ready (by omega) hwait [] false
    obtain ⟨t, rfl⟩ := hcur k
    obtain ⟨q', hq', -⟩ := V.exists_sent (congrArg (Option.map _) hk)
    exact hready t false ⟨q', _, hq'⟩
  subst hdu
  exact ⟨rfl, hflow.putCheck_one.mp hwait⟩

/-- With one slot, the first commit puts the producer to sleep, and nobody is ready. -/
theorem exists_stuck (hstart : Flow 1 size (m % 2 ^ 16) none (view q₀).1 (view q₀).2)
    (hvar : (view q₀).1.vptr.var = 0) (hm : m % 2 ^ 16 ≠ 0) :
    ∃ s, Reaches (NoCopy.step ops cnt) (NoCopy.start q₀) s ∧ s.Stuck ops := by
  have hI := V.storeInvariant (Flow.storeInvariant 1 size m)
  obtain ⟨u, hu⟩ : ∃ u, ops.slotUnit q₀ = some u := by
    refine ⟨_, (V.slotUnit q₀).trans (readAt_eq_some ?_)⟩
    rw [hvar, hstart.len, hstart.qsize]
    omega
  obtain ⟨q₁, i, hq₁⟩ : ∃ q₁ i, ops.putEnter q₀ cnt = some (q₁, i) := by
    have henter := V.putEnter q₀
    simp only [nmc12mOps, nmc12mPutEnter, if_pos (hstart.rcidx.trans_le hstart.rclen),
      Option.map_some] at henter
    obtain ⟨⟨q₁, i⟩, hq₁, -⟩ := Option.map_eq_some_iff.mp henter
    exact ⟨q₁, i, hq₁⟩
  have hwait : ops.putCheck q₁ i = some none :=
    (putCheck_wait_iff V).mpr ((hI.enter hstart hq₁).putCheck_one.mpr hm)
  have hstep : NoCopy.step ops cnt (NoCopy.start q₀) .commit
      = some (NoCopy.waits ⟨q₁, .idle, fun _ => .idle, [u], 0, []⟩ i) := by
    simp only [NoCopy.step, NoCopy.start, hu, hq₁, NoCopy.check, hwait,
      Option.bind_eq_bind, Option.bind_some, Option.map_some, List.nil_append]
  have hreach := Reaches.single hstep
  refine ⟨_, hreach, rfl, fun t condRecv hready => ?_⟩
  obtain ⟨q', w, hsent⟩ := hready
  have hsent' := V.of_sent hsent
  obtain ⟨o, ho, heq⟩ := Option.map_eq_some_iff.mp hsent'
  cases o with
  | sent r fd' => exact (hI.reaches hstart hreach).store.not_ready ho
  | refused _ | wait => cases heq

end Stuck

/-- **The producer and its readers can stop each other exactly when there is a single slot** and
the count of a put, in its `unsigned short`, is not 0. -/
theorem stuck_iff_of_views (V : Views ops cnt (nmc12mOps ι) m cur view)
    (hcur : Function.Surjective cur) (size : ℕ) (q₀ : σ)
    (hstart : Flow du size (m % 2 ^ 16) none (view q₀).1 (view q₀).2)
    (hvar : (view q₀).1.vptr.var = 0) :
    (∃ s, Reaches (NoCopy.step ops cnt) (NoCopy.start q₀) s ∧ s.Stuck ops) ↔
      du = 1 ∧ m % 2 ^ 16 ≠ 0 := by
  constructor
  · rintro ⟨s, hs, hstuck⟩
    exact of_stuck V hcur hstart hs hstuck
  · rintro ⟨rfl, hm⟩
    exact exists_stuck V hstart hvar hm

end Flow

/-! ## Both queues -/

theorem nmc12m_stuck_iff (rawMem : ℕ → Byte) (rawRc : ℕ → ℕ) {du size : ℕ} (hdu : 1 ≤ du)
    (hfits : du * size < 2 ^ 64) (m : ℕ) :
    (∃ s, Reaches (NoCopy.step (nmc12mOps (Fin m)) m) (nmc12mStart rawMem rawRc du size (Fin m)) s ∧
      s.Stuck (nmc12mOps (Fin m))) ↔ du = 1 ∧ m % 2 ^ 16 ≠ 0 := by
  refine stuck_iff_of_views (Views.refl _ m) Function.surjective_id size _ ?_ rfl
  refine Flow.start rawMem (by simp) (fun s hs hlt => ?_) hdu hfits ?_
  · exact (getElem?_clearRc _ _ _).trans (if_pos (by simp; omega))
  · rw [Fintype.card_fin]
    exact Nat.mod_le _ _

theorem farmn_stuck_iff (rawMem : ℕ → Byte) (rawRc : ℕ → ℕ) {du size : ℕ} (hdu : 1 ≤ du)
    (hfits : du * size < 2 ^ 64) (c : ℕ) {w : ℕ} (hw : 1 ≤ w) :
    (∃ s, Reaches (NoCopy.step (farmnOps (Fin w)) c) (farmnStart rawMem rawRc du size w) s ∧
      s.Stuck (farmnOps (Fin w))) ↔ du = 1 := by
  refine (stuck_iff_of_views (farmn_views (Fin w) c) (fun _ => ⟨⟨0, hw⟩, rfl⟩) size _ ?_ rfl).trans
    (and_iff_left (by decide))
  refine Flow.start rawMem ?_ (fun s hs hlt => ?_) hdu hfits le_rfl
  · refine le_trans ?_ (length_clearRc _ _).ge
    simp
    omega
  · exact (getElem?_clearRc _ _ _).trans (if_pos (by simp; omega))

/-- **No-copy queues stop exactly when they have a single unit**, where the size of the block is a
`size_t`.  A state in which the producer sleeps in its put, with no wake-up pending, and no send can
proceed is reachable for the farm queue if and only if `du = 1`, and for the one-to-many queue if
and only if `du = 1` and the count of its consumers does not wrap to 0 in the `unsigned short` it is
stored in. -/
theorem no_copy_stuck_iff (rawMem : ℕ → Byte) (rawRc : ℕ → ℕ) (du size : ℕ) (hdu : 1 ≤ du)
    (hfits : du * size < 2 ^ 64) :
    (∀ m, (∃ s, Reaches (NoCopy.step (nmc12mOps (Fin m)) m)
        (nmc12mStart rawMem rawRc du size (Fin m)) s ∧ s.Stuck (nmc12mOps (Fin m))) ↔
      du = 1 ∧ m % 2 ^ 16 ≠ 0) ∧
    ∀ c w, 1 ≤ w → ((∃ s, Reaches (NoCopy.step (farmnOps (Fin w)) c)
        (farmnStart rawMem rawRc du size w) s ∧ s.Stuck (farmnOps (Fin w))) ↔ du = 1) :=
  ⟨fun m => nmc12m_stuck_iff rawMem rawRc hdu hfits m,
    fun c _ hw => farmn_stuck_iff rawMem rawRc hdu hfits c hw⟩

/-- One unit, and as many consumers as leave no trace in the counter: the put never waits. -/
theorem nmc12m_not_stuck_65536 :
    ¬ ((∃ s, Reaches (NoCopy.step (nmc12mOps (Fin 65536)) 65536)
        (nmc12mStart (fun _ => 0) (fun _ => 0) 1 1 (Fin 65536)) s ∧
      s.Stuck (nmc12mOps (Fin 65536))) ↔ 1 = 1) := by
  rw [nmc12m_stuck_iff _ _ le_rfl (by decide)]
  simp

/-- A farm of two workers with two units does not stop. -/
theorem no_copy_stuck_iff_two :
    ¬ ∃ s, Reaches (NoCopy.step (farmnOps (Fin 2)) 1)
        (farmnStart (fun _ => 0) (fun _ => 0) 2 1 2) s ∧ s.Stuck (farmnOps (Fin 2)) := fun h =>
  absurd
    (((no_copy_stuck_iff (fun _ => 0) (fun _ => 0) 2 1 (by decide) (by decide)).2 1 2
      (by decide)).mp h)
    (by decide)

end Libdsys
