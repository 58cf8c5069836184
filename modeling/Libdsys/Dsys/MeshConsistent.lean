import Libdsys.Dsys.MeshSound

/-!
# Dsys/MeshConsistent — the socket lists fit together

* `Mesh.mesh_consistent` — a finished network has its descriptors paired, and one that is not
  finished can take a step, while all the port numbers fit in sixteen bits.
* `Mesh.ports_wrap` — beyond that a port comes out as 0, and the network gets stuck.
-/

open Machinery

namespace Libdsys

namespace Mesh

section Runs

variable {H : Type*} [DecidableEq H] {size : ℕ} {host : ℕ → H} {s s' : Mesh} {p : ℕ}

/-! ### Ports -/

theorem port_injective (hfit : 6666 + 2 * size ≤ 2 ^ 16) {q i : ℕ} {t t' : SockType}
    (hq : q < size) (hi : i < size) (h : port size q t' = port size i t) : q = i ∧ t' = t := by
  cases t <;> cases t' <;> simp only [port] at h <;>
    rw [Nat.mod_eq_of_lt (by omega), Nat.mod_eq_of_lt (by omega)] at h
  · exact ⟨by omega, rfl⟩
  · omega
  · omega
  · exact ⟨by omega, rfl⟩

theorem port_pos (hfit : 6666 + 2 * size ≤ 2 ^ 16) {i : ℕ} {t : SockType} (hi : i < size) :
    port size i t ≠ 0 := by
  cases t <;> simp only [port] <;> rw [Nat.mod_eq_of_lt (by omega)] <;> omega

omit [DecidableEq H] in
theorem Sound.not_taken (hfit : 6666 + 2 * size ≤ 2 ^ 16) (hs : s.Sound size) {t : SockType}
    (hp : p < size) (hph : s.phase p = .listen t) : ¬s.Taken size host p t := by
  rintro ⟨q, hq, t', hl, -, hport, -⟩
  obtain ⟨rfl, rfl⟩ := port_injective hfit hq hp hport
  have hlt := ((hs.listening q t').mp hl).1
  rw [pos, hph] at hlt
  exact lt_irrefl _ hlt

/-- **A step keeps the network sound** while the ports fit. -/
theorem Sound.kept (hfit : 6666 + 2 * size ≤ 2 ^ 16) {a : MeshAct} (hs : s.Sound size)
    (h : step size host s a = some s') : s'.Sound size := by
  cases fires_of_step h with
  | refused hp hph ht => exact absurd ht (hs.not_taken hfit hp hph)
  | opened hp hph ht => exact hs.opened hp hph
  | handed hph hc => exact hs.handed hph hc
  | identified hph hm => exact hs.identified hph hm
  | closed hph => exact hs.closed hph
  | @connected p i q t t' hph hq ha =>
    have hi : (Phase.connect i t).InRange size p := hph ▸ hs.phase p
    obtain ⟨rfl, rfl⟩ := port_injective hfit hq hi.2 ha.2.2.1
    exact hs.connected hph
  | announced hph => exact hs.announced hph

theorem sound_of_reaches (hfit : 6666 + 2 * size ≤ 2 ^ 16) (h : Reaches (step size host) start s) :
    s.Sound size :=
  h.invariant (fun _ _ _ hs ha => hs.kept hfit ha) (sound_start size)

/-! ### Progress -/

/-- Every process has returned from `__bc_socket_network_create`. -/
def Done (size : ℕ) (s : Mesh) : Prop := ∀ p < size, s.phase p = .done

/-- A process that has not reached its listener for a type can step. -/
theorem listen_enabled {t : SockType} (hp : p < size) (hph : s.phase p = .listen t) :
    (step size host s (.listen p)).isSome := by
  simp only [step, hph, if_pos hp, Option.isSome_some]

variable (host) in
/-- **Progress**: below the lowest rank that has not finished all have, so none of them is waited
for. -/
theorem Sound.enabled (hfit : 6666 + 2 * size ≤ 2 ^ 16) (hs : s.Sound size)
    (hundone : ¬Done size s) : ∃ a, (step size host s a).isSome := by
  have hex : ∃ p, p < size ∧ s.phase p ≠ .done := by
    simpa [Done] using hundone
  obtain ⟨hp, hph⟩ := Nat.find_spec hex
  have hmin : ∀ x < Nat.find hex, s.phase x = .done := fun x hx => by
    by_contra hne
    exact Nat.find_min hex hx ⟨hx.trans hp, hne⟩
  generalize Nat.find hex = p at hp hph hmin
  have hlow : ∀ x < p, ∀ t : SockType, 4 * p + 2 * t.num < s.pos size x := fun x hx t => by
    have ht := t.num_le
    rw [pos, hmin x hx, Phase.pos]
    omega
  have hin := hs.phase p
  cases hcase : s.phase p with
  | listen t => exact ⟨.listen p, listen_enabled hp hcase⟩
  | accept i t =>
    rw [hcase] at hin
    have ht := t.num_le
    have hpos : s.pos size p = 4 * i + 2 * t.num + 2 := by rw [pos, hcase]; rfl
    obtain ⟨c, hc⟩ := List.exists_mem_of_ne_nil _ (hs.backlog_ne_nil (q := p) (t := t)
      (Nat.zero_lt_of_lt hin.1) (fun x hx => (hlow x hx t).le) (by have := hin.1; omega))
    exact ⟨.accept p c, by simp only [step, hcase, if_pos hc, Option.isSome_some]⟩
  | recv i t c =>
    obtain ⟨i', hi', hc⟩ := hs.held p c (by rw [hcase]; rfl)
    obtain ⟨hrank, -, hlt, -⟩ := (hs.mem p _ c).mp (List.mem_append_left _ hc)
    have hsent : s.sent c = some (c.client, c.type) := by
      rw [hs.sent, hrank, if_pos ⟨hlt, hlow _ hlt _⟩]
    exact ⟨.recv p, by simp only [step, hcase, hsent, Option.map_some, Option.isSome_some]⟩
  | close => exact ⟨.close p, by simp only [step, hcase, if_true, Option.isSome_some]⟩
  | connect i t =>
    rw [hcase] at hin
    obtain ⟨hpi, hi⟩ : p < i ∧ i < size := hin
    have ht := t.num_le
    have hpos : s.pos size p = 4 * i + 2 * t.num - 1 := by rw [pos, hcase]; rfl
    by_cases hawake : t.num < s.pos size i
    · -- a listener closes only after it has served every lower rank, and this one is still to come
      have hopen : s.pos size i ≤ 4 * i + 2 := by
        by_contra hclosed
        have hle := hs.le_pos_of_served (t := t) (by omega) hpi
        omega
      have ha : s.Answers size host i t i t :=
        ⟨(hs.listening i t).mpr ⟨hawake, hopen⟩, rfl, rfl, port_pos hfit hi⟩
      exact ⟨.connect p i t, by
        simp only [step, hcase, if_pos (And.intro hi ha), Option.isSome_some]⟩
    · have hearly : s.pos size i ≤ 1 := by omega
      cases hci : s.phase i with
      | listen t' => exact ⟨.listen i, listen_enabled hi hci⟩
      | _ =>
        have hin' := hs.phase i
        simp only [pos, hci, Phase.pos, Phase.InRange] at hearly hin'
        omega
  | send i t => exact ⟨.send p, by simp only [step, hcase, Option.isSome_some]⟩
  | done => exact absurd hcase hph

/-! ### What a finished network looks like -/

/-- The end that process `p` has of its connection with process `q`. -/
def link (p q : ℕ) (t : SockType) : Fd :=
  if p < q then ⟨⟨p, q, t⟩, .connected⟩ else ⟨⟨q, p, t⟩, .accepted⟩

theorem link_peer {p q : ℕ} (hpq : p ≠ q) (t : SockType) : (link p q t).peer = link q p t := by
  obtain hlt | hlt := Nat.lt_or_gt_of_ne hpq
  · rw [link, link, if_pos hlt, if_neg hlt.le.not_gt]
    rfl
  · rw [link, link, if_neg hlt.le.not_gt, if_pos hlt]
    rfl

/-- The socket lists fit together. -/
structure Consistent (size : ℕ) (s : Mesh) : Prop where
  /-- Two processes hold the two ends of one connection of each type, and nothing else was ever
  written to the entries they have for each other. -/
  paired : ∀ p < size, ∀ q < size, p ≠ q → ∀ t,
    s.slist p (rank2idx p q) t = [link p q t] ∧ s.slist q (rank2idx q p) t = [(link p q t).peer]
  /-- Every entry was written once. -/
  filled : ∀ p < size, ∀ idx < size - 1, ∀ t, (s.slist p idx t).length = 1
  /-- The thread of an entry serves the rank of the entry. -/
  serves : ∀ p < size, ∀ q < size, p ≠ q →
    rank2idx p q < size - 1 ∧ remote p (rank2idx p q) = q
  /-- There are no other entries. -/
  covers : ∀ p < size, ∀ idx < size - 1,
    remote p idx < size ∧ remote p idx ≠ p ∧ rank2idx p (remote p idx) = idx

theorem remote_rank2idx {p q : ℕ} (hpq : p ≠ q) : remote p (rank2idx p q) = q := by
  unfold remote rank2idx
  split <;> split <;> omega

theorem rank2idx_remote (p idx : ℕ) : remote p idx ≠ p ∧ rank2idx p (remote p idx) = idx := by
  unfold remote rank2idx
  split <;> split <;> omega

theorem Sound.slist_eq (hs : s.Sound size) (hdone : Done size s) {q : ℕ} (hp : p < size)
    (hq : q < size) (hpq : p ≠ q) (t : SockType) : s.slist p (rank2idx p q) t = [link p q t] := by
  have ht := t.num_le
  have hpos : ∀ x < size, s.pos size x = 4 * size - 1 := fun x hx => by
    rw [pos, hdone x hx]
    rfl
  obtain hlt | hlt := Nat.lt_or_gt_of_ne hpq
  · have hq1 : q - 1 + 1 = q := by omega
    rw [rank2idx_of_gt hlt, hs.up p (q - 1) t (by omega), hq1, hpos p hp, if_pos (by omega), link,
      if_pos hlt]
  · have hmem : (⟨q, p, t⟩ : Conn) ∈ s.accepted p t := by
      have h := (hs.mem p t ⟨q, p, t⟩).mpr ⟨rfl, rfl, hlt, by rw [hpos q hq]; omega⟩
      rwa [hs.backlog_eq_nil (by rw [hpos p hp]; omega), List.append_nil] at h
    rw [rank2idx_of_lt hlt, hs.down p q t hlt, hdone p hp,
      if_pos ⟨hmem, (Option.some_ne_none _).symm⟩,
      link, if_neg hlt.le.not_gt]

theorem Sound.consistent (hs : s.Sound size) (hdone : Done size s) : Consistent size s where
  paired p hp q hq hpq t :=
    ⟨hs.slist_eq hdone hp hq hpq t, link_peer hpq t ▸ hs.slist_eq hdone hq hp hpq.symm t⟩
  filled p hp idx hidx t := by
    obtain ⟨hne, hidx'⟩ := rank2idx_remote p idx
    have hlt : remote p idx < size := by
      unfold remote
      split <;> omega
    have h := hs.slist_eq hdone hp hlt hne.symm t
    rw [hidx'] at h
    rw [h, List.length_singleton]
  serves p hp q hq hpq := by
    refine ⟨?_, remote_rank2idx hpq⟩
    unfold rank2idx
    split <;> omega
  covers p hp idx hidx := by
    refine ⟨?_, rank2idx_remote p idx⟩
    unfold remote
    split <;> omega

/-- **Socket mesh consistency** — while the ports fit, a finished network has its descriptors
paired, and one that is not finished can take a step. -/
theorem mesh_consistent (size : ℕ) (host : ℕ → H) (hfit : 6666 + 2 * size ≤ 2 ^ 16) (s : Mesh)
    (hs : Reaches (step size host) start s) :
    (Done size s → Consistent size s) ∧ (¬Done size s → ∃ a, (step size host s a).isSome) :=
  ⟨(sound_of_reaches hfit hs).consistent, (sound_of_reaches hfit hs).enabled host hfit⟩

variable (host) in
/-- Every run can be continued until the network is finished. -/
theorem exists_done (hfit : 6666 + 2 * size ≤ 2 ^ 16) (hs : Reaches (step size host) start s) :
    ∃ t, Reaches (step size host) s t ∧ Done size t := by
  obtain ⟨t, hst, ht⟩ := exists_stuck host (sound_of_reaches hfit hs).phase
  refine ⟨t, hst, ?_⟩
  by_contra hundone
  obtain ⟨a, ha⟩ := (sound_of_reaches hfit (hs.trans hst)).enabled host hfit hundone
  rw [ht a] at ha
  cases ha

/-- Three processes, two of them on one host. -/
theorem mesh_consistent_three : ∃ s, Reaches (step 3 fun p => p / 2) start s ∧ Consistent 3 s := by
  obtain ⟨s, hs, hdone⟩ := exists_done (fun p => p / 2)
    (show 6666 + 2 * 3 ≤ 2 ^ 16 by decide) ⟨[], rfl⟩
  exact ⟨s, hs, (mesh_consistent 3 (fun p => p / 2) (by decide) s hs).1 hdone⟩

/-! ### Where the ports do not fit -/

omit [DecidableEq H] in
/-- Process 0 does not get past a connection to port 0. -/
theorem Fires.pos_zero {i : ℕ} {t : SockType} (hi : 0 < i) (hport : port size i t = 0)
    (h : Fires size host s s') (hs : (s.phase 0).InRange size 0)
    (hlt : s.pos size 0 < 4 * i + 2 * t.num) : s'.pos size 0 < 4 * i + 2 * t.num := by
  have key : ∀ {p : ℕ} {u : Mesh} {ph : Phase}, u.phase = s.phase →
      (p = 0 → ph.pos size 0 < 4 * i + 2 * t.num) →
      (u.setPhase p ph).pos size 0 < 4 * i + 2 * t.num := by
    intro p u ph hu hp
    by_cases hp0 : p = 0
    · subst hp0
      rw [pos, setPhase_self]
      exact hp rfl
    · change (Function.update u.phase p ph 0).pos size 0 < _
      rw [Function.update_of_ne fun h => hp0 h.symm, hu]
      exact hlt
  cases h with
  | @refused p t' hp hph =>
    refine key rfl fun hp0 => ?_
    rw [hp0, pos_accepts (Nat.zero_le _)]
    omega
  | @opened p t' hp hph =>
    have ht := t'.num_le
    refine key rfl fun hp0 => ?_
    rw [hp0, pos_listened]
    omega
  | @handed p i' t' c hph =>
    refine key rfl fun hp0 => ?_
    subst hp0
    rw [hph] at hs
    exact absurd hs.1 (Nat.not_lt_zero _)
  | @identified p i' t' c m hph =>
    refine key rfl fun hp0 => ?_
    subst hp0
    rw [hph] at hs
    exact absurd hs.1 (Nat.not_lt_zero _)
  | @closed p hph =>
    refine key rfl fun hp0 => ?_
    subst hp0
    rw [hph] at hs
    rw [pos_connects (by exact hs)]
    omega
  | @connected p i' q t' t'' hph hq ha =>
    have ht := t.num_le
    have ht' := t'.num_le
    refine key rfl fun hp0 => ?_
    subst hp0
    rw [pos, hph, Phase.pos] at hlt
    rw [Phase.pos]
    by_contra hge
    have hii : i' = i := by omega
    have htt : t' = t := SockType.num_injective (by omega)
    exact ha.2.2.2 (hii ▸ htt ▸ hport)
  | @announced p i' t' hph =>
    refine key rfl fun hp0 => ?_
    subst hp0
    rw [hph] at hs
    rw [pos, hph, Phase.pos] at hlt
    rw [pos_sentTo hs.2]
    omega

variable (host) in
/-- A network in which some port comes out as 0 gets stuck before it is finished. -/
theorem stuck_of_port_zero {i : ℕ} {t : SockType} (hi : 0 < i) (hsize : i < size)
    (hport : port size i t = 0) : ∃ s, Reaches (step size host) start s ∧ ¬Done size s ∧
      ∀ a, step size host s a = none := by
  obtain ⟨s, hs, hstuck⟩ := exists_stuck host (sound_start size).phase
  refine ⟨s, hs, fun hdone => ?_, hstuck⟩
  have ht := t.num_le
  obtain ⟨-, hlt⟩ := hs.invariant
    (P := fun s => (∀ p, (s.phase p).InRange size p) ∧ s.pos size 0 < 4 * i + 2 * t.num)
    (fun _ _ _ h ha => ⟨(remaining_lt h.1 ha).1, (fires_of_step ha).pos_zero hi hport (h.1 0) h.2⟩)
    ⟨(sound_start size).phase, by change 0 < _; omega⟩
  rw [pos, hdone 0 (by omega), Phase.pos] at hlt
  omega

/-- 29436 processes on as many hosts: the data port of rank 29434 is 0. -/
theorem ports_wrap : ∃ s, Reaches (step 29436 fun p => p) start s ∧ ¬Done 29436 s ∧
    ∀ a, step 29436 (fun p => p) s a = none :=
  stuck_of_port_zero (i := 29434) (t := .data) _ (by decide) (by decide) (by decide)

end Runs

end Mesh

end Libdsys
