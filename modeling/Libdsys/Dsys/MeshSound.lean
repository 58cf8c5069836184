import Mathlib.Data.List.Perm.Basic
import Mathlib.Data.List.Nodup
import Libdsys.Dsys.Mesh

/-!
# Dsys/MeshSound — the invariant of the socket network

Everything a process has done can be read off how far it has come, and so can what has been done to
it: a listener has been reached by exactly the processes that are past their connection to it.

* `Mesh.Sound` — what holds in every reachable state.
* `Mesh.Sound.backlog_eq_nil`, `Mesh.Sound.le_pos_of_served` — a listener that has served as many as
  there are has served everybody.
* `Mesh.Sound.opened` to `Mesh.Sound.announced` — one lemma a step.
-/

namespace Libdsys

namespace Mesh

/-- **What holds in every reachable state**, each part read off how far the processes have come. -/
structure Sound (size : ℕ) (s : Mesh) : Prop where
  phase : ∀ p, (s.phase p).InRange size p
  listening : ∀ q t, s.listening q t = true ↔ t.num < s.pos size q ∧ s.pos size q ≤ 4 * q + 2
  nodup : ∀ q t, (s.accepted q t ++ s.backlog q t).Nodup
  mem : ∀ q t c, c ∈ s.accepted q t ++ s.backlog q t ↔
    c.rank = q ∧ c.type = t ∧ c.client < q ∧ 4 * q + 2 * t.num ≤ s.pos size c.client
  count : ∀ q t, (s.accepted q t).length = min q ((s.pos size q + 1 - 2 * t.num) / 4)
  held : ∀ p c, (s.phase p).held = some c → ∃ i, s.phase p = .recv i c.type c ∧
    c ∈ s.accepted p c.type
  sent : ∀ c, s.sent c = if c.client < c.rank ∧
    4 * c.rank + 2 * c.type.num < s.pos size c.client then some (c.client, c.type) else none
  rank : ∀ p, 4 * p + 2 < s.pos size p → (s.id p).1 = p
  type : ∀ p i t, s.phase p = .send i t → (s.id p).2 = t
  up : ∀ p j t, p ≤ j → s.slist p j t =
    if 4 * (j + 1) + 2 * t.num < s.pos size p then [⟨⟨p, j + 1, t⟩, .connected⟩] else []
  down : ∀ p j t, j < p → s.slist p j t =
    if ⟨j, p, t⟩ ∈ s.accepted p t ∧ (s.phase p).held ≠ some ⟨j, p, t⟩ then
      [⟨⟨j, p, t⟩, .accepted⟩] else []

theorem sound_start (size : ℕ) : Sound size start where
  phase _ := .inl rfl
  listening q t := ⟨nofun, fun h => absurd h.1 (Nat.not_lt_zero _)⟩
  nodup _ _ := List.nodup_nil
  mem q t c := by
    refine ⟨nofun, fun ⟨_, _, hlt, hle⟩ => ?_⟩
    change _ ≤ 0 at hle
    omega
  count q t := by
    change 0 = min q ((0 + 1 - 2 * t.num) / 4)
    omega
  held _ _ h := nomatch h
  sent c := (if_neg fun h => absurd h.2 (Nat.not_lt_zero _)).symm
  rank p h := absurd h (Nat.not_lt_zero _)
  type _ _ _ h := nomatch h
  up _ _ _ _ := (if_neg (Nat.not_lt_zero _)).symm
  down _ _ _ _ := (if_neg fun h => absurd h.1 List.not_mem_nil).symm

/-- One process takes one step. -/
structure Moved (size p : ℕ) (s s' : Mesh) : Prop where
  others : ∀ x, x ≠ p → s'.phase x = s.phase x
  pos_self : s'.pos size p = s.pos size p + 1
  inRange : (s'.phase p).InRange size p

section Steps

variable {size : ℕ} {s s' : Mesh} {p : ℕ}

theorem moved_setPhase {t : Mesh} {ph : Phase} (ht : t.phase = s.phase)
    (hpos : ph.pos size p = s.pos size p + 1) (hph : ph.InRange size p) :
    Moved size p s (t.setPhase p ph) where
  others x hx := (Function.update_of_ne hx _ _).trans (congrFun ht x)
  pos_self := by
    change Phase.pos size p (Function.update t.phase p ph p) = _
    rw [Function.update_self, hpos]
  inRange := by
    change Phase.InRange size p (Function.update t.phase p ph p)
    rw [Function.update_self]
    exact hph

theorem Moved.pos_of_ne (hm : Moved size p s s') {x : ℕ} (hx : x ≠ p) :
    s'.pos size x = s.pos size x := congrArg _ (hm.others x hx)

theorem Moved.le_pos (hm : Moved size p s s') {v x : ℕ} (hv : x = p → v ≠ s.pos size p + 1) :
    v ≤ s'.pos size x ↔ v ≤ s.pos size x := by
  by_cases hx : x = p
  · subst hx
    have := hv rfl
    rw [hm.pos_self]
    omega
  · rw [hm.pos_of_ne hx]

theorem Moved.le_of_le (hm : Moved size p s s') {v x : ℕ} (hv : v ≤ s.pos size x) :
    v ≤ s'.pos size x := by
  by_cases hx : x = p
  · subst hx
    rw [hm.pos_self]
    omega
  · rwa [hm.pos_of_ne hx]

theorem Moved.lt_pos (hm : Moved size p s s') {v x : ℕ} (hv : x = p → v ≠ s.pos size p) :
    v < s'.pos size x ↔ v < s.pos size x :=
  hm.le_pos fun hx h => hv hx (Nat.succ_injective h)

/-! What a step leaves alone, it leaves sound where no bound is crossed. -/

theorem Moved.phase (hm : Moved size p s s') (hs : s.Sound size) (x : ℕ) :
    (s'.phase x).InRange size x := by
  by_cases hx : x = p
  · exact hx ▸ hm.inRange
  · rw [hm.others x hx]
    exact hs.phase x

theorem Moved.listening (hm : Moved size p s s') (hs : s.Sound size)
    (h : s'.listening = s.listening) (hlow : 2 ≤ s.pos size p) (hhigh : s.pos size p ≠ 4 * p + 2)
    (q : ℕ) (t : SockType) :
    s'.listening q t = true ↔ t.num < s'.pos size q ∧ s'.pos size q ≤ 4 * q + 2 := by
  have ht := t.num_le
  rw [h, hs.listening, hm.lt_pos (by omega), ← not_lt, ← not_lt, hm.lt_pos]
  rintro rfl
  exact hhigh.symm

theorem Moved.mem (hm : Moved size p s s') (hs : s.Sound size)
    (h : ∀ q t c, c ∈ s'.accepted q t ++ s'.backlog q t ↔ c ∈ s.accepted q t ++ s.backlog q t)
    (hk : ∀ q (t : SockType), p < q → s.pos size p + 1 ≠ 4 * q + 2 * t.num) (q : ℕ) (t : SockType)
    (c : Conn) : c ∈ s'.accepted q t ++ s'.backlog q t ↔
      c.rank = q ∧ c.type = t ∧ c.client < q ∧ 4 * q + 2 * t.num ≤ s'.pos size c.client := by
  rw [h, hs.mem]
  refine and_congr_right fun _ => and_congr_right fun _ => and_congr_right fun hlt => ?_
  exact (hm.le_pos fun hx => (hk q t (hx ▸ hlt)).symm).symm

theorem Moved.count (hm : Moved size p s s') (hs : s.Sound size) (h : s'.accepted = s.accepted)
    (hk : ∀ t : SockType, min p ((s.pos size p + 2 - 2 * t.num) / 4) =
      min p ((s.pos size p + 1 - 2 * t.num) / 4)) (q : ℕ) (t : SockType) :
    (s'.accepted q t).length = min q ((s'.pos size q + 1 - 2 * t.num) / 4) := by
  rw [h, hs.count]
  by_cases hq : q = p
  · subst hq
    rw [hm.pos_self]
    exact (hk t).symm
  · rw [hm.pos_of_ne hq]

theorem Moved.sent (hm : Moved size p s s') (hs : s.Sound size) (h : s'.sent = s.sent)
    (hk : ∀ q (t : SockType), p < q → s.pos size p ≠ 4 * q + 2 * t.num) (c : Conn) :
    s'.sent c = if c.client < c.rank ∧ 4 * c.rank + 2 * c.type.num < s'.pos size c.client then
      some (c.client, c.type) else none := by
  rw [h, hs.sent]
  refine if_congr (and_congr_right fun hlt => ?_) rfl rfl
  exact (hm.lt_pos fun hx => (hk _ _ (hx ▸ hlt)).symm).symm

theorem Moved.rank (hm : Moved size p s s') (hs : s.Sound size) (h : ∀ x ≠ p, s'.id x = s.id x)
    (hp : 4 * p + 2 < s.pos size p + 1 → (s'.id p).1 = p) (x : ℕ)
    (hx : 4 * x + 2 < s'.pos size x) : (s'.id x).1 = x := by
  by_cases hxp : x = p
  · subst hxp
    exact hp (hm.pos_self ▸ hx)
  · rw [h x hxp]
    exact hs.rank x (hm.pos_of_ne hxp ▸ hx)

theorem Moved.type (hm : Moved size p s s') (hs : s.Sound size) (h : ∀ x ≠ p, s'.id x = s.id x)
    (hp : ∀ i t, s'.phase p = .send i t → (s'.id p).2 = t) (x i : ℕ) (t : SockType)
    (hx : s'.phase x = .send i t) : (s'.id x).2 = t := by
  by_cases hxp : x = p
  · subst hxp
    exact hp i t hx
  · rw [h x hxp]
    rw [hm.others x hxp] at hx
    exact hs.type x i t hx

theorem Moved.held (hm : Moved size p s s') (hs : s.Sound size)
    (h : ∀ q t c, c ∈ s.accepted q t → c ∈ s'.accepted q t) (hp : (s'.phase p).held = none) (x : ℕ)
    (c : Conn) (hx : (s'.phase x).held = some c) :
    ∃ i, s'.phase x = .recv i c.type c ∧ c ∈ s'.accepted x c.type := by
  by_cases hxp : x = p
  · subst hxp
    rw [hp] at hx
    cases hx
  · rw [hm.others x hxp] at hx ⊢
    obtain ⟨i, hi, hc⟩ := hs.held x c hx
    exact ⟨i, hi, h _ _ _ hc⟩

theorem Moved.up (hm : Moved size p s s') (hs : s.Sound size) {x j : ℕ} {t : SockType}
    (h : s'.slist x j t = s.slist x j t)
    (hk : ∀ q (t : SockType), p < q → s.pos size p ≠ 4 * q + 2 * t.num) (hj : x ≤ j) :
    s'.slist x j t =
      if 4 * (j + 1) + 2 * t.num < s'.pos size x then [⟨⟨x, j + 1, t⟩, .connected⟩] else [] := by
  rw [h, hs.up x j t hj]
  refine if_congr (hm.lt_pos ?_).symm rfl rfl
  rintro rfl
  exact (hk (j + 1) t (Nat.lt_succ_of_le hj)).symm

theorem down_of_same (hs : s.Sound size) {x j : ℕ} {t : SockType}
    (h : s'.slist x j t = s.slist x j t)
    (hacc : (⟨j, x, t⟩ ∈ s'.accepted x t ∧ (s'.phase x).held ≠ some ⟨j, x, t⟩) ↔
      (⟨j, x, t⟩ ∈ s.accepted x t ∧ (s.phase x).held ≠ some ⟨j, x, t⟩)) (hj : j < x) :
    s'.slist x j t =
      if ⟨j, x, t⟩ ∈ s'.accepted x t ∧ (s'.phase x).held ≠ some ⟨j, x, t⟩ then
        [⟨⟨j, x, t⟩, .accepted⟩] else [] := by
  rw [h, hs.down x j t hj]
  exact if_congr hacc.symm rfl rfl

theorem Moved.held_eq (hm : Moved size p s s') (h : (s.phase p).held = none)
    (h' : (s'.phase p).held = none) (x : ℕ) : (s'.phase x).held = (s.phase x).held := by
  by_cases hx : x = p
  · rw [hx, h, h']
  · rw [hm.others x hx]

theorem accepts_ne_send (p i j : ℕ) (t : SockType) : accepts p i ≠ .send j t := by
  unfold accepts
  split <;> nofun

theorem Sound.opened {t : SockType} (hs : s.Sound size) (hp : p < size)
    (hph : s.phase p = .listen t) :
    Sound size ((s.opened p t).setPhase p (listened p t)) := by
  have hpos : s.pos size p = t.num := by rw [pos, hph]; rfl
  have hm : Moved size p s ((s.opened p t).setPhase p (listened p t)) :=
    moved_setPhase rfl (by rw [hpos, pos_listened]) (inRange_listened hp)
  have ht := t.num_le
  have hk : ∀ q (t' : SockType), p < q → s.pos size p ≠ 4 * q + 2 * t'.num := by omega
  have heq := hm.held_eq (by rw [hph]; rfl) (by simp)
  refine ⟨hm.phase hs, fun q t' => ?_, hs.nodup, hm.mem hs (fun _ _ _ => Iff.rfl) (by omega),
    hm.count hs rfl (by omega), hm.held hs (fun _ _ _ h => h) (by simp), hm.sent hs rfl hk,
    hm.rank hs (fun _ _ => rfl) (by omega), hm.type hs (fun _ _ => rfl) ?_,
    fun x j t' => hm.up hs rfl hk, fun x j t' => down_of_same hs rfl (by rw [heq]; rfl)⟩
  · change (if q = p ∧ t' = t then true else s.listening q t') = true ↔ _
    by_cases hq : q = p
    · subst hq
      rw [hm.pos_self, hpos]
      by_cases htt : t' = t
      · rw [if_pos ⟨rfl, htt⟩, htt]
        exact iff_of_true rfl (by omega)
      · have hne : t'.num ≠ t.num := fun h => htt (SockType.num_injective h)
        rw [if_neg fun h => htt h.2, hs.listening, hpos]
        omega
    · rw [if_neg fun h => hq h.1, hs.listening, hm.pos_of_ne hq]
  · intro i t' h
    rw [setPhase_self] at h
    cases t with
    | req => cases h
    | data => exact absurd h (accepts_ne_send _ _ _ _)

theorem handed_accepted (s : Mesh) (p : ℕ) (t : SockType) (c : Conn) (q : ℕ) (t' : SockType) :
    (s.handed p t c).accepted q t' =
      if q = p ∧ t' = t then s.accepted q t' ++ [c] else s.accepted q t' := rfl

theorem handed_perm {t : SockType} {c : Conn} (hc : c ∈ s.backlog p t) (q : ℕ) (t' : SockType) :
    ((s.handed p t c).accepted q t' ++ (s.handed p t c).backlog q t').Perm
      (s.accepted q t' ++ s.backlog q t') := by
  rw [handed_accepted, handed]
  by_cases hq : q = p ∧ t' = t
  · obtain ⟨rfl, rfl⟩ := hq
    simp only [and_self, if_true, List.append_assoc]
    exact (List.perm_cons_erase hc).symm.append_left _
  · simp only [hq, if_false]
    exact .refl _

theorem Sound.handed {i : ℕ} {t : SockType} {c : Conn} (hs : s.Sound size)
    (hph : s.phase p = .accept i t) (hc : c ∈ s.backlog p t) :
    Sound size ((s.handed p t c).setPhase p (.recv i t c)) := by
  have hpos : s.pos size p = 4 * i + 2 * t.num + 2 := by rw [pos, hph]; rfl
  obtain ⟨hi, hp⟩ : (Phase.accept i t).InRange size p := hph ▸ hs.phase p
  have hm : Moved size p s ((s.handed p t c).setPhase p (.recv i t c)) :=
    moved_setPhase rfl (by rw [hpos]; rfl) ⟨hi, hp⟩
  have ht := t.num_le
  have hk : ∀ q (t' : SockType), p < q → s.pos size p ≠ 4 * q + 2 * t'.num := by omega
  have hperm := handed_perm hc
  obtain ⟨-, rfl, hcp, -⟩ := (hs.mem p t c).mp (List.mem_append_right _ hc)
  have hmem : ∀ q t' d, d ∈ (s.handed p c.type c).accepted q t' ↔
      d ∈ s.accepted q t' ∨ (q = p ∧ t' = c.type ∧ d = c) := by
    intro q t' d
    rw [handed_accepted]
    by_cases hq : q = p ∧ t' = c.type
    · obtain ⟨rfl, rfl⟩ := hq
      simp
    · rw [if_neg hq]
      exact ⟨.inl, fun h => h.resolve_right fun h => hq ⟨h.1, h.2.1⟩⟩
  have hnew : c ∉ s.accepted p c.type := fun h =>
    List.disjoint_of_nodup_append (hs.nodup p c.type) h hc
  refine ⟨hm.phase hs, hm.listening hs rfl (by omega) (by omega),
    fun q t' => (hperm q t').nodup_iff.mpr (hs.nodup q t'),
    hm.mem hs (fun q t' d => (hperm q t').mem_iff) (by omega), fun q t' => ?_, fun x d hd => ?_,
    hm.sent hs rfl hk, hm.rank hs (fun _ _ => rfl) (by omega), hm.type hs (fun _ _ => rfl) ?_,
    fun x j t' => hm.up hs rfl hk, fun x j t' => down_of_same hs rfl ?_⟩
  · change ((s.handed p c.type c).accepted q t').length = _
    rw [handed_accepted]
    have ht' := t'.num_le
    by_cases hq : q = p
    · subst hq
      rw [hm.pos_self]
      by_cases htt : t' = c.type
      · rw [if_pos ⟨rfl, htt⟩, List.length_append, hs.count, List.length_singleton, htt]
        omega
      · have hne : t'.num ≠ c.type.num := fun h => htt (SockType.num_injective h)
        rw [if_neg fun h => htt h.2, hs.count]
        omega
    · rw [if_neg fun h => hq h.1, hs.count, hm.pos_of_ne hq]
  · change ∃ i, _ ∧ d ∈ (s.handed p c.type c).accepted x d.type
    by_cases hx : x = p
    · subst hx
      rw [setPhase_self] at hd ⊢
      obtain rfl : c = d := Option.some.inj hd
      exact ⟨i, rfl, (hmem _ _ _).mpr (.inr ⟨rfl, rfl, rfl⟩)⟩
    · rw [hm.others x hx] at hd ⊢
      obtain ⟨i', hi', hd'⟩ := hs.held x d hd
      exact ⟨i', hi', (hmem _ _ _).mpr (.inl hd')⟩
  · intro i' t' h
    rw [setPhase_self] at h
    cases h
  · change (_ ∈ (s.handed p c.type c).accepted x t' ∧ _) ↔ _
    rw [hmem]
    by_cases hx : x = p
    · subst hx
      rw [setPhase_self, hph]
      simp only [Phase.held, true_and]
      by_cases hd : (⟨j, x, t'⟩ : Conn) = c
      · refine iff_of_false (fun h => h.2 (congrArg some hd.symm)) fun h => hnew ?_
        subst hd
        exact h.1
      · refine and_congr (or_iff_left fun h => hd h.2) (iff_of_true ?_ (Option.some_ne_none _).symm)
        exact fun h => hd (Option.some.inj h).symm
    · rw [hm.others x hx]
      simp [hx]

theorem fill_slist (s : Mesh) (p idx : ℕ) (t : SockType) (fd : Fd) (x j : ℕ) (t' : SockType) :
    (s.fill p idx t fd).slist x j t' =
      if x = p ∧ j = idx ∧ t' = t then fd :: s.slist x j t' else s.slist x j t' := rfl

theorem rank2idx_of_lt {x : ℕ} (hx : x < p) : rank2idx p x = x := if_neg (by omega)

theorem rank2idx_of_gt {x : ℕ} (hx : p < x) : rank2idx p x = x - 1 := if_pos hx

theorem received_ne_send (p i j : ℕ) (t t' : SockType) : received p i t ≠ .send j t' := by
  cases t with
  | req => nofun
  | data => exact accepts_ne_send _ _ _ _

theorem sentTo_ne_send (size i j : ℕ) (t t' : SockType) : sentTo size i t ≠ .send j t' := by
  cases t with
  | req => nofun
  | data =>
    change connects size (i + 1) ≠ _
    unfold connects
    split <;> nofun

theorem Sound.identified {i : ℕ} {t : SockType} {c : Conn} {m : ℕ × SockType} (hs : s.Sound size)
    (hph : s.phase p = .recv i t c) (hm : s.sent c = some m) :
    Sound size ((s.identified p c m).setPhase p (received p i t)) := by
  have hpos : s.pos size p = 4 * i + 2 * t.num + 3 := by rw [pos, hph]; rfl
  obtain ⟨hi, hp⟩ : (Phase.recv i t c).InRange size p := hph ▸ hs.phase p
  obtain ⟨i', hi', hc⟩ := hs.held p c (by rw [hph]; rfl)
  obtain ⟨rfl, rfl, -⟩ : i = i' ∧ t = c.type ∧ c = c := by simpa [hph] using hi'
  obtain ⟨hrank, -, hlt, -⟩ := (hs.mem p c.type c).mp (List.mem_append_left _ hc)
  obtain rfl : (c.client, c.type) = m := by
    rw [hs.sent] at hm
    exact Option.some.inj (Option.ite_none_right_eq_some.mp hm).2
  have hmv : Moved size p s ((s.identified p c (c.client, c.type)).setPhase p
      (received p i c.type)) :=
    moved_setPhase rfl (by rw [hpos, pos_received hi]) (inRange_received hi hp)
  have ht := c.type.num_le
  have hk : ∀ q (t' : SockType), p < q → s.pos size p ≠ 4 * q + 2 * t'.num := by omega
  have hslist : ∀ x j t', ((s.identified p c (c.client, c.type)).setPhase p
      (received p i c.type)).slist x j t' = if x = p ∧ j = c.client ∧ t' = c.type then
        ⟨c, .accepted⟩ :: s.slist x j t' else s.slist x j t' := by
    intro x j t'
    refine (fill_slist _ _ _ _ _ x j t').trans ?_
    rw [rank2idx_of_lt hlt]
  have hid : ∀ x ≠ p, (s.identified p c (c.client, c.type)).id x = s.id x := fun x hx =>
    Function.update_of_ne hx _ _
  refine ⟨hmv.phase hs, hmv.listening hs rfl (by omega) (by omega), hs.nodup,
    hmv.mem hs (fun _ _ _ => Iff.rfl) (by omega), hmv.count hs rfl (by omega),
    hmv.held hs (fun _ _ _ h => h) (by simp), hmv.sent hs rfl hk, hmv.rank hs hid (by omega),
    hmv.type hs hid ?_, fun x j t' hj => hmv.up hs ?_ hk hj, fun x j t' hj => ?_⟩
  · intro i' t' h
    rw [setPhase_self] at h
    exact absurd h (received_ne_send _ _ _ _ _)
  · rw [hslist, if_neg]
    rintro ⟨rfl, rfl, -⟩
    omega
  · by_cases hx : x = p
    · subst hx
      by_cases hjc : j = c.client ∧ t' = c.type
      · obtain ⟨rfl, rfl⟩ := hjc
        have hceq : (⟨c.client, x, c.type⟩ : Conn) = c := by rw [← hrank]
        rw [hslist, if_pos ⟨rfl, rfl, rfl⟩, hs.down x _ _ hj, hceq, setPhase_self, hph,
          held_received, if_neg fun h => h.2 rfl]
        exact (if_pos ⟨hc, (Option.some_ne_none _).symm⟩).symm
      · refine down_of_same hs (by rw [hslist, if_neg fun h => hjc h.2]) ?_ hj
        rw [setPhase_self, hph]
        refine and_congr Iff.rfl (iff_of_true ?_ ?_)
        · rw [held_received]
          exact (Option.some_ne_none _).symm
        · rintro ⟨⟩
          exact hjc ⟨rfl, rfl⟩
    · refine down_of_same hs (by rw [hslist, if_neg fun h => hx h.1]) ?_ hj
      rw [hmv.others x hx]
      rfl

/-! ### The connections to a listener are counted by their connectors -/

theorem Sound.nodup_clients (hs : s.Sound size) (q : ℕ) (t : SockType) :
    ((s.accepted q t ++ s.backlog q t).map Conn.client).Nodup := by
  refine (hs.nodup q t).map_on fun c hc d hd h => ?_
  obtain ⟨hcr, hct, -⟩ := (hs.mem q t c).mp hc
  obtain ⟨hdr, hdt, -⟩ := (hs.mem q t d).mp hd
  cases c
  cases d
  simp_all

theorem Sound.mem_clients (hs : s.Sound size) {q x : ℕ} {t : SockType} :
    x ∈ (s.accepted q t ++ s.backlog q t).map Conn.client ↔
      x < q ∧ 4 * q + 2 * t.num ≤ s.pos size x := by
  rw [List.mem_map]
  constructor
  · rintro ⟨c, hc, rfl⟩
    obtain ⟨-, -, h⟩ := (hs.mem q t c).mp hc
    exact h
  · exact fun h => ⟨⟨x, q, t⟩, (hs.mem q t _).mpr ⟨rfl, rfl, h⟩, rfl⟩

theorem Sound.length_add (hs : s.Sound size) (q : ℕ) (t : SockType) :
    (s.accepted q t).length + (s.backlog q t).length =
      ((Finset.range q).filter fun x => 4 * q + 2 * t.num ≤ s.pos size x).card := by
  rw [← List.length_append, ← List.length_map Conn.client,
    ← List.toFinset_card_of_nodup (hs.nodup_clients q t)]
  refine congrArg Finset.card (Finset.ext fun x => ?_)
  rw [List.mem_toFinset, hs.mem_clients, Finset.mem_filter, Finset.mem_range]

/-- Nobody waits at a listener that has served every lower rank. -/
theorem Sound.backlog_eq_nil (hs : s.Sound size) {q : ℕ} {t : SockType}
    (hq : 4 * q + 2 * t.num ≤ s.pos size q + 1) : s.backlog q t = [] := by
  have hadd := hs.length_add q t
  have hle := Finset.card_filter_le (Finset.range q) fun x => 4 * q + 2 * t.num ≤ s.pos size x
  rw [hs.count] at hadd
  rw [Finset.card_range] at hle
  refine List.eq_nil_of_length_eq_zero ?_
  omega

/-- Every lower rank has connected to a listener that has served as many as there are. -/
theorem Sound.le_pos_of_served (hs : s.Sound size) {q x : ℕ} {t : SockType}
    (hq : 4 * q + 2 * t.num ≤ s.pos size q + 1) (hx : x < q) :
    4 * q + 2 * t.num ≤ s.pos size x := by
  have hadd := hs.length_add q t
  rw [hs.count, hs.backlog_eq_nil hq, List.length_nil] at hadd
  have hall := (Finset.card_filter_eq_iff (s := Finset.range q)
    (p := fun x => 4 * q + 2 * t.num ≤ s.pos size x)).mp (by rw [Finset.card_range]; omega)
  exact hall x (Finset.mem_range.mpr hx)

/-- Somebody waits at a listener that has served fewer than have connected to it. -/
theorem Sound.backlog_ne_nil (hs : s.Sound size) {q : ℕ} {t : SockType} (hpos : 0 < q)
    (hall : ∀ x < q, 4 * q + 2 * t.num ≤ s.pos size x)
    (hq : s.pos size q + 1 < 4 * q + 2 * t.num) : s.backlog q t ≠ [] := by
  intro hnil
  have hadd := hs.length_add q t
  rw [hs.count, hnil, Finset.filter_true_of_mem fun x hx => hall x (Finset.mem_range.mp hx),
    Finset.card_range, List.length_nil] at hadd
  omega

/-! ### The steps that close, connect and send -/

theorem Sound.closed (hs : s.Sound size) (hph : s.phase p = .close) :
    Sound size ((s.closed p).setPhase p (connects size (p + 1))) := by
  have hpos : s.pos size p = 4 * p + 2 := by rw [pos, hph]; rfl
  have hp : p < size := by
    have h := hs.phase p
    rwa [hph] at h
  have hm : Moved size p s ((s.closed p).setPhase p (connects size (p + 1))) :=
    moved_setPhase rfl (by rw [hpos, pos_connects hp]; rfl)
      (inRange_connects p.lt_succ_self hp)
  have hk : ∀ q (t' : SockType), p < q → s.pos size p ≠ 4 * q + 2 * t'.num := by omega
  have hbacklog : (s.closed p).backlog = s.backlog := by
    funext q t
    change (if q = p then [] else s.backlog q t) = _
    split
    · have ht := t.num_le
      obtain rfl := ‹q = p›
      exact (hs.backlog_eq_nil (by omega)).symm
    · rfl
  have hid : ∀ x ≠ p, (s.closed p).id x = s.id x := fun x hx => Function.update_of_ne hx _ _
  have heq := hm.held_eq (by rw [hph]; rfl) (by simp)
  refine ⟨hm.phase hs, fun q t => ?_, fun q t => ?_, hm.mem hs (fun q t c => ?_) (by omega),
    hm.count hs rfl (fun t => ?_), hm.held hs (fun _ _ _ h => h) (by simp), hm.sent hs rfl hk,
    hm.rank hs hid fun _ => ?_, hm.type hs hid ?_, fun x j t' => hm.up hs rfl hk,
    fun x j t' => down_of_same hs rfl (by rw [heq]; rfl)⟩
  · change (if q = p then false else s.listening q t) = true ↔ _
    by_cases hq : q = p
    · subst hq
      rw [if_pos rfl, hm.pos_self]
      exact iff_of_false Bool.false_ne_true (by omega)
    · rw [if_neg hq, hs.listening, hm.pos_of_ne hq]
  · change (s.accepted q t ++ (s.closed p).backlog q t).Nodup
    rw [hbacklog]
    exact hs.nodup q t
  · change c ∈ s.accepted q t ++ (s.closed p).backlog q t ↔ _
    rw [hbacklog]
  · have ht := t.num_le
    omega
  · change (Function.update s.id p (p, (s.id p).2) p).1 = p
    rw [Function.update_self]
  · intro i t h
    rw [setPhase_self] at h
    unfold connects at h
    split at h <;> cases h

theorem Sound.connected {i : ℕ} {t : SockType} (hs : s.Sound size)
    (hph : s.phase p = .connect i t) :
    Sound size ((s.connected p i t i t).setPhase p (.send i t)) := by
  have hpos : s.pos size p = 4 * i + 2 * t.num - 1 := by rw [pos, hph]; rfl
  obtain ⟨hpi, hi⟩ : (Phase.connect i t).InRange size p := hph ▸ hs.phase p
  have ht := t.num_le
  have hm : Moved size p s ((s.connected p i t i t).setPhase p (.send i t)) :=
    moved_setPhase rfl (by rw [hpos, Phase.pos]; omega) ⟨hpi, hi⟩
  have hk : ∀ q (t' : SockType), p < q → s.pos size p ≠ 4 * q + 2 * t'.num := by omega
  have hnew : (⟨p, i, t⟩ : Conn) ∉ s.accepted i t ++ s.backlog i t := fun h => by
    have := ((hs.mem i t _).mp h).2.2.2
    change _ ≤ s.pos size p at this
    omega
  have happend : ∀ q t', (s.connected p i t i t).accepted q t' ++
      (s.connected p i t i t).backlog q t' =
        if q = i ∧ t' = t then (s.accepted q t' ++ s.backlog q t') ++ [⟨p, i, t⟩]
        else s.accepted q t' ++ s.backlog q t' := by
    intro q t'
    change s.accepted q t' ++ (if _ then _ else _) = _
    split
    · rw [List.append_assoc]
    · rfl
  have hid : ∀ x ≠ p, (s.connected p i t i t).id x = s.id x := fun x hx =>
    Function.update_of_ne hx _ _
  have heq := hm.held_eq (by rw [hph]; rfl) (by rw [setPhase_self]; rfl)
  refine ⟨hm.phase hs, hm.listening hs rfl (by omega) (by omega), fun q t' => ?_,
    fun q t' c => ?_, hm.count hs rfl (fun t' => ?_),
    hm.held hs (fun _ _ _ h => h) (by rw [setPhase_self]; rfl), hm.sent hs rfl hk,
    hm.rank hs hid fun _ => ?_, hm.type hs hid ?_, fun x j t' => hm.up hs rfl hk,
    fun x j t' => down_of_same hs rfl (by rw [heq]; rfl)⟩
  · change ((s.connected p i t i t).accepted q t' ++ (s.connected p i t i t).backlog q t').Nodup
    rw [happend]
    split
    · obtain ⟨rfl, rfl⟩ := ‹q = i ∧ t' = t›
      exact List.nodup_append.mpr ⟨hs.nodup _ _, List.nodup_singleton _, fun a ha b hb hab =>
        hnew (List.mem_singleton.mp hb ▸ hab ▸ ha)⟩
    · exact hs.nodup q t'
  · change c ∈ (s.connected p i t i t).accepted q t' ++ (s.connected p i t i t).backlog q t' ↔ _
    rw [happend]
    by_cases hq : q = i ∧ t' = t
    · obtain ⟨rfl, rfl⟩ := hq
      rw [if_pos ⟨rfl, rfl⟩, List.mem_append, hs.mem, List.mem_singleton]
      constructor
      · rintro (⟨hr, hty, hlt, hle⟩ | rfl)
        · exact ⟨hr, hty, hlt, hm.le_of_le hle⟩
        · exact ⟨rfl, rfl, hpi, by rw [hm.pos_self]; omega⟩
      · rintro ⟨hr, hty, hlt, hle⟩
        by_cases hcp : c.client = p
        · refine .inr ?_
          cases c
          simp_all
        · exact .inl ⟨hr, hty, hlt, hm.pos_of_ne hcp ▸ hle⟩
    · rw [if_neg hq, hs.mem]
      refine and_congr_right fun _ => and_congr_right fun _ => and_congr_right fun hlt => ?_
      refine (hm.le_pos fun hx h => hq ?_).symm
      have ht' := t'.num_le
      have hqi : q = i := by omega
      exact ⟨hqi, SockType.num_injective (by omega)⟩
  · have ht' := t'.num_le
    omega
  · change (Function.update s.id p ((s.id p).1, t) p).1 = p
    rw [Function.update_self]
    exact hs.rank p (by omega)
  · intro i' t' h
    rw [setPhase_self] at h
    cases h
    change (Function.update s.id p ((s.id p).1, t) p).2 = t
    rw [Function.update_self]

theorem Sound.announced {i : ℕ} {t : SockType} (hs : s.Sound size) (hph : s.phase p = .send i t) :
    Sound size ((s.announced p i t).setPhase p (sentTo size i t)) := by
  have hpos : s.pos size p = 4 * i + 2 * t.num := by rw [pos, hph]; rfl
  obtain ⟨hpi, hi⟩ : (Phase.send i t).InRange size p := hph ▸ hs.phase p
  have ht := t.num_le
  have hm : Moved size p s ((s.announced p i t).setPhase p (sentTo size i t)) :=
    moved_setPhase rfl (by rw [hpos, pos_sentTo hi]) (inRange_sentTo hpi hi)
  have hidp : s.id p = (p, t) := Prod.ext (hs.rank p (by omega)) (hs.type p i t hph)
  have heq := hm.held_eq (by rw [hph]; rfl) (by simp)
  have hslist : ∀ x j t', ((s.announced p i t).setPhase p (sentTo size i t)).slist x j t' =
      if x = p ∧ j = i - 1 ∧ t' = t then ⟨⟨p, i, t⟩, .connected⟩ :: s.slist x j t'
      else s.slist x j t' := by
    intro x j t'
    refine (fill_slist _ _ _ _ _ x j t').trans ?_
    rw [rank2idx_of_gt hpi]
  refine ⟨hm.phase hs, hm.listening hs rfl (by omega) (by omega), hs.nodup,
    hm.mem hs (fun _ _ _ => Iff.rfl) (by omega), hm.count hs rfl (fun t' => ?_),
    hm.held hs (fun _ _ _ h => h) (by simp), fun c => ?_,
    hm.rank hs (fun _ _ => rfl) fun _ => hs.rank p (by omega), hm.type hs (fun _ _ => rfl) ?_,
    fun x j t' hj => ?_, fun x j t' hj => down_of_same hs ?_ (by rw [heq]; rfl) hj⟩
  · have ht' := t'.num_le
    omega
  · change Function.update s.sent ⟨p, i, t⟩ (some (s.id p)) c = _
    by_cases hc : c = ⟨p, i, t⟩
    · subst hc
      have hlt : 4 * i + 2 * t.num < s.pos size p + 1 := by omega
      rw [Function.update_self, hidp, if_pos ⟨hpi, hm.pos_self ▸ hlt⟩]
    · rw [Function.update_of_ne hc, hs.sent]
      refine if_congr (and_congr_right fun hlt => (hm.lt_pos fun hx h => hc ?_).symm) rfl rfl
      have ht' := c.type.num_le
      have hri : c.rank = i := by omega
      have htt : c.type = t := SockType.num_injective (by omega)
      rw [← hx, ← hri, ← htt]
  · intro i' t' h
    rw [setPhase_self] at h
    exact absurd h (sentTo_ne_send _ _ _ _ _)
  · by_cases hx : x = p ∧ j = i - 1 ∧ t' = t
    · have hji : j + 1 = i := by omega
      rw [hslist, if_pos hx, hs.up x j t' hj]
      obtain ⟨rfl, -, rfl⟩ := hx
      rw [hji, hm.pos_self, if_neg (by omega), if_pos (by omega)]
    · rw [hslist, if_neg hx, hs.up x j t' hj]
      refine if_congr (hm.lt_pos fun hxp h => hx ?_).symm rfl rfl
      have ht' := t'.num_le
      exact ⟨hxp, by omega, SockType.num_injective (by omega)⟩
  · rw [hslist, if_neg]
    rintro ⟨rfl, rfl, -⟩
    omega

end Steps

end Mesh

end Libdsys
