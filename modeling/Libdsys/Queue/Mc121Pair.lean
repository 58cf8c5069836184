import Libdsys.Machinery.Monitor
import Libdsys.Queue.Mc121
import Mathlib.Data.Int.GCD

/-!
# Queue/Mc121Pair — when a producer and a service thread deadlock on one ring buffer

One thread loops over `__bc_mc121_put` of `p` bytes, one over `__bc_mc121_send` of `g`, and both
sleep on the one `no_suff`.  They can both be asleep for good iff

    S < p + g - gcd p g                                              (`mc121_deadlock_iff`)

* Only if: a sleeper's condition is false for as long as it sleeps — the other thread is the only
  one to change it and signals when it does — and the fill level is a multiple of `gcd p g`.
* If: with each put followed by all the gets it allows, the levels are the `k * p % g`, and one of
  them is `g - gcd p g`.
-/

open Machinery

namespace Libdsys

/-! ## The two threads -/

/-- A queue, the socket, and the two threads that sleep on `no_suff`. -/
structure Pair where
  q : Mc121
  fd : List Byte
  producer : Thread (List Byte)
  service : Thread ℕ

/-- What happens next: a thread makes a call, tries again after a wake-up, or wakes spuriously. -/
inductive PairAct
  | put (loc : List Byte)
  | retryPut
  | get
  | retryGet
  | spuriousPut
  | spuriousGet

namespace Pair

/-- One turn of the loop in `__bc_mc121_put`: the signal of a granted put reaches the only other
thread that can sleep. -/
def mc121Put (s : Pair) (loc : List Byte) (bytes : ℕ) : Option Pair :=
  match putqMc121 s.q loc bytes with
  | some (0, q) => some { s with q, producer := .idle, service := s.service.wake }
  | some (_, q) => some { s with q, producer := .asleep loc }
  | none => none

/-- One turn of the loop in `__bc_mc121_send`, for an unconditional get. -/
def mc121Send (s : Pair) (bytes : ℕ) : Option Pair :=
  match sendqMc121 s.q s.fd bytes false with
  | some (0, q, fd) => some { q, fd, service := .idle, producer := s.producer.wake }
  | some (_, q, fd) => some { s with q, fd, service := .asleep bytes }
  | none => none

/-- The steps of a producer of `p` bytes and a consumer of `g`. -/
def step (p g : ℕ) (s : Pair) : PairAct → Option Pair
  | .put loc =>
    match s.producer with
    | .idle => if loc.length = p then s.mc121Put loc p else none
    | _ => none
  | .retryPut =>
    match s.producer with
    | .woken loc => s.mc121Put loc p
    | _ => none
  | .get =>
    match s.service with
    | .idle => s.mc121Send g
    | _ => none
  | .retryGet =>
    match s.service with
    | .woken bytes => s.mc121Send bytes
    | _ => none
  | .spuriousPut =>
    if s.producer.isAsleep then some { s with producer := s.producer.wake } else none
  | .spuriousGet =>
    if s.service.isAsleep then some { s with service := s.service.wake } else none

/-- Both threads before their first call. -/
def start (raw : ℕ → Byte) (S : ℕ) : Pair := ⟨mc121Create raw S, [], .idle, .idle⟩

/-- **Both threads sleep and no wake-up is pending.** -/
def Deadlocked (s : Pair) : Prop := s.producer.isAsleep ∧ s.service.isAsleep

variable {S p g : ℕ} {s : Pair}

theorem mc121Put_eq (h : s.q.Wf) {loc : List Byte} (hl : loc.length = p) : s.mc121Put loc p =
    some (if s.q.size - s.q.bytesInbuff < p then { s with producer := .asleep loc }
      else { s with q := s.q.pushed loc, producer := .idle, service := s.service.wake }) := by
  subst hl
  rw [mc121Put, putqMc121_eq h]
  split_ifs <;> rfl

theorem mc121Send_eq (h : s.q.Wf) (g : ℕ) : s.mc121Send g =
    some (if s.q.bytesInbuff < g then { s with service := .asleep g }
      else { q := s.q.popped g, fd := s.fd ++ s.q.contents.take g,
             service := .idle, producer := s.producer.wake }) := by
  rw [mc121Send, sendqMc121_eq h]
  split_ifs
  · rfl
  · rw [preamble, if_neg Bool.false_ne_true, List.append_nil]
    rfl

/-! ## A sleeper's condition is false -/

/-- **The invariant**: the fill level moves by `p` and `g` only, and whoever sleeps could not
proceed. -/
structure Inv (S p g : ℕ) (s : Pair) : Prop where
  wf : s.q.Wf
  size : s.q.size = S
  dvd : Nat.gcd p g ∣ s.q.bytesInbuff
  putting : ∀ loc ∈ s.producer.call?, loc.length = p
  getting : ∀ bytes ∈ s.service.call?, bytes = g
  producer : s.producer.isAsleep → S - s.q.bytesInbuff < p
  service : s.service.isAsleep → s.q.bytesInbuff < g

theorem inv_start (raw : ℕ → Byte) (S p g : ℕ) : Inv S p g (start raw S) where
  wf := Mc121.wf_mc121Create raw S
  size := rfl
  dvd := Nat.dvd_zero _
  putting := by simp [start]
  getting := by simp [start]
  producer := by simp [start]
  service := by simp [start]

theorem Inv.mc121Put (h : Inv S p g s) {loc : List Byte} (hl : loc.length = p) {t : Pair}
    (ht : s.mc121Put loc p = some t) : Inv S p g t := by
  have hsize := h.size
  rw [mc121Put_eq h.wf hl, Option.some.injEq] at ht
  subst ht
  split
  case isTrue hfull =>
    exact { h with
      putting := by simpa using hl
      producer := fun _ => by change S - s.q.bytesInbuff < p; omega }
  case isFalse hroom =>
    have hin := h.wf.inbuff
    exact {
      wf := h.wf.pushed (by omega)
      size := h.size
      dvd := Nat.dvd_add h.dvd (hl ▸ Nat.gcd_dvd_left p g)
      putting := by simp
      getting := by simpa using h.getting
      producer := by simp
      service := by simp }

theorem Inv.mc121Send (h : Inv S p g s) {t : Pair} (ht : s.mc121Send g = some t) :
    Inv S p g t := by
  rw [mc121Send_eq h.wf, Option.some.injEq] at ht
  subst ht
  split
  case isTrue hempty =>
    exact { h with
      getting := by simp
      service := fun _ => hempty }
  case isFalse hdata =>
    exact {
      wf := h.wf.popped (not_lt.mp hdata)
      size := h.size
      dvd := Nat.dvd_sub h.dvd (Nat.gcd_dvd_right _ _)
      putting := by simpa using h.putting
      getting := by simp
      producer := by simp
      service := by simp }

theorem Inv.step (h : Inv S p g s) {a : PairAct} {t : Pair} (ht : s.step p g a = some t) :
    Inv S p g t := by
  cases a with
  | put loc =>
    rw [Pair.step] at ht
    split at ht
    · split at ht
      · exact h.mc121Put ‹_› ht
      · cases ht
    · cases ht
  | retryPut =>
    rw [Pair.step] at ht
    split at ht
    · rename_i loc hwoken
      exact h.mc121Put (h.putting loc (by simp [hwoken])) ht
    · cases ht
  | get =>
    rw [Pair.step] at ht
    split at ht
    · exact h.mc121Send ht
    · cases ht
  | retryGet =>
    rw [Pair.step] at ht
    split at ht
    · rename_i bytes hwoken
      obtain rfl : bytes = g := h.getting bytes (by simp [hwoken])
      exact h.mc121Send ht
    · cases ht
  | spuriousPut =>
    rw [Pair.step] at ht
    split at ht
    · obtain rfl := Option.some.inj ht
      exact { h with putting := by simpa using h.putting, producer := by simp }
    · cases ht
  | spuriousGet =>
    rw [Pair.step] at ht
    split at ht
    · obtain rfl := Option.some.inj ht
      exact { h with getting := by simpa using h.getting, service := by simp }
    · cases ht

theorem inv_of_reaches {raw : ℕ → Byte} (h : Reaches (step p g) (start raw S) s) : Inv S p g s :=
  h.invariant (fun _ _ _ hs ht => hs.step ht) (inv_start raw S p g)

/-- **A deadlock needs a small buffer.** -/
theorem Inv.lt_of_deadlocked (h : Inv S p g s) (hd : s.Deadlocked) : S < p + g - Nat.gcd p g := by
  have hput := h.producer hd.1
  have hget := h.service hd.2
  have hin := h.wf.inbuff
  have hsize := h.size
  -- two different multiples of the gcd are at least the gcd apart
  have hgap : Nat.gcd p g ≤ g - s.q.bytesInbuff :=
    Nat.le_of_dvd (by omega) (Nat.dvd_sub (Nat.gcd_dvd_right p g) h.dvd)
  omega

/-! ## The walk below the bound -/

/-- Both threads can be between calls at fill level `f`. -/
def Level (raw : ℕ → Byte) (S p g f : ℕ) : Prop :=
  ∃ s, Reaches (step p g) (start raw S) s ∧ s.producer = .idle ∧ s.service = .idle ∧
    s.q.bytesInbuff = f

variable {raw : ℕ → Byte} {f : ℕ}

theorem level_zero : Level raw S p g 0 := ⟨_, Reaches.refl _, rfl, rfl, rfl⟩

theorem Level.put (h : Level raw S p g f) (hf : f + p ≤ S) : Level raw S p g (f + p) := by
  obtain ⟨s, hs, hprod, hserv, rfl⟩ := h
  have hinv := inv_of_reaches hs
  have hsize := hinv.size
  have hl : (List.replicate p (0 : Byte)).length = p := List.length_replicate
  have hstep : s.step p g (.put (List.replicate p 0)) = some
      { s with q := s.q.pushed (List.replicate p 0), producer := .idle, service := .idle } := by
    rw [Pair.step, hprod]
    simp only [hl, if_true]
    rw [mc121Put_eq hinv.wf hl, if_neg (by omega), hserv]
    rfl
  exact ⟨_, hs.tail hstep, rfl, rfl, congrArg (s.q.bytesInbuff + ·) hl⟩

theorem Level.get (h : Level raw S p g f) (hf : g ≤ f) : Level raw S p g (f - g) := by
  obtain ⟨s, hs, hprod, hserv, rfl⟩ := h
  have hstep : s.step p g .get = some
      { q := s.q.popped g, fd := s.fd ++ s.q.contents.take g,
        producer := .idle, service := .idle } := by
    rw [Pair.step, hserv]
    simp only
    rw [mc121Send_eq (inv_of_reaches hs).wf, if_neg (by omega), hprod]
    rfl
  exact ⟨_, hs.tail hstep, rfl, rfl, rfl⟩

/-- **At a level where neither can proceed, both fall asleep.** -/
theorem Level.deadlock (h : Level raw S p g f) (hput : S < f + p) (hget : f < g) :
    ∃ s, Reaches (step p g) (start raw S) s ∧ s.Deadlocked := by
  obtain ⟨s, hs, hprod, hserv, rfl⟩ := h
  have hinv := inv_of_reaches hs
  have hsize := hinv.size
  have hin := hinv.wf.inbuff
  have hl : (List.replicate p (0 : Byte)).length = p := List.length_replicate
  have hstep : s.step p g (.put (List.replicate p 0))
      = some { s with producer := .asleep (List.replicate p 0) } := by
    rw [Pair.step, hprod]
    simp only [hl, if_true]
    rw [mc121Put_eq hinv.wf hl, if_pos (by omega)]
  have hstep' : Pair.step p g { s with producer := .asleep (List.replicate p 0) } .get
      = some { s with producer := .asleep (List.replicate p 0), service := .asleep g } := by
    rw [Pair.step, hserv]
    simp only
    rw [mc121Send_eq (by exact hinv.wf), if_pos (by exact hget)]
  exact ⟨_, (hs.tail hstep).tail hstep', rfl, rfl⟩

/-- Gets drain a level to its remainder. -/
theorem Level.mod (h : Level raw S p g f) (hg : 0 < g) : Level raw S p g (f % g) := by
  induction f using Nat.strongRecOn with
  | ind f ih =>
    rcases lt_or_ge f g with hlt | hge
    · rwa [Nat.mod_eq_of_lt hlt]
    · rw [Nat.mod_eq_sub_mod hge]
      exact ih (f - g) (by omega) (h.get hge)

/-- **Puts as they fit and gets at once visit every `k * p % g`**, unless the threads deadlock on
the way. -/
theorem level_or_deadlock (hg : 0 < g) (k : ℕ) : Level raw S p g (k * p % g) ∨
    ∃ s, Reaches (step p g) (start raw S) s ∧ s.Deadlocked := by
  induction k with
  | zero =>
    rw [Nat.zero_mul, Nat.zero_mod]
    exact Or.inl level_zero
  | succ k ih =>
    refine ih.elim (fun hlev => ?_) Or.inr
    rcases le_or_gt (k * p % g + p) S with hfit | hfull
    · refine Or.inl ?_
      have hnext := (hlev.put hfit).mod hg
      rwa [Nat.mod_add_mod, ← Nat.succ_mul] at hnext
    · exact Or.inr (hlev.deadlock hfull (Nat.mod_lt _ hg))

/-- The walk meets the highest level below `g` it can meet at all. -/
theorem exists_mul_mod_eq_sub_gcd (p : ℕ) {g : ℕ} (hg : 0 < g) :
    ∃ k, k * p % g = g - Nat.gcd p g := by
  rcases (Nat.gcd_le_right p hg).lt_or_eq with hlt | heq
  · obtain ⟨m, -, hm⟩ := Nat.exists_mul_mod_eq_gcd hlt
    obtain ⟨c, hc⟩ := Nat.gcd_dvd_right p g
    have hd : 0 < Nat.gcd p g := Nat.gcd_pos_of_pos_right p hg
    have hlast : (c - 1) * Nat.gcd p g = g - Nat.gcd p g := by
      rw [Nat.sub_mul, Nat.one_mul, Nat.mul_comm c, ← hc]
    refine ⟨(c - 1) * m, ?_⟩
    calc (c - 1) * m * p % g = (c - 1) * (p * m % g) % g := by
          rw [Nat.mul_mod_mod, Nat.mul_assoc, Nat.mul_comm m]
      _ = (g - Nat.gcd p g) % g := by rw [hm, hlast]
      _ = g - Nat.gcd p g := Nat.mod_eq_of_lt (by omega)
  · exact ⟨0, by rw [heq, Nat.zero_mul, Nat.zero_mod, Nat.sub_self]⟩

/-- **Below the bound the threads can deadlock.** -/
theorem exists_deadlock (raw : ℕ → Byte) (h : S < p + g - Nat.gcd p g) :
    ∃ s, Reaches (step p g) (start raw S) s ∧ s.Deadlocked := by
  have hg : 0 < g := by
    refine Nat.pos_of_ne_zero fun h0 => ?_
    rw [h0, Nat.gcd_zero_right] at h
    omega
  obtain ⟨k, hk⟩ := exists_mul_mod_eq_sub_gcd p hg
  have hd : 0 < Nat.gcd p g := Nat.gcd_pos_of_pos_right p hg
  have hle : Nat.gcd p g ≤ g := Nat.gcd_le_right p hg
  refine (level_or_deadlock hg k).elim (fun hlev => ?_) id
  rw [hk] at hlev
  exact hlev.deadlock (by omega) (by omega)

end Pair

/-- **The exact buffer bound of a memory-copy pipe**: producer and service thread can both sleep on
`no_suff` with no wake-up pending iff the queue holds less than `p + g - gcd p g` bytes. -/
theorem mc121_deadlock_iff (raw : ℕ → Byte) (S p g : ℕ) :
    (∃ s, Reaches (Pair.step p g) (Pair.start raw S) s ∧ s.Deadlocked) ↔
      S < p + g - Nat.gcd p g := by
  constructor
  · rintro ⟨s, hs, hd⟩
    exact (Pair.inv_of_reaches hs).lt_of_deadlocked hd
  · exact Pair.exists_deadlock raw

end Libdsys
