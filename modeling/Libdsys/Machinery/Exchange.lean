import Libdsys.Machinery.Runs
import Mathlib.Data.List.Basic
import Mathlib.Logic.Function.Basic

/-!
# Machinery/Exchange — agents that exchange at once

What an agent does here is one exchange: it removes the first messages of some channels and appends
messages to others, as soon as the former are there and the latter have room.  Every channel has one
writer and one reader, so that exchanges of different agents do not get in each other's way.

* `Exchanges.reaches_sync` — agents that are all ready can move together.
-/

namespace Machinery

variable {A K M L : Type*}

/-- What an agent with local states `L` does on channels `K` of messages `M`. -/
structure Exchange (K M L : Type*) where
  /-- How many messages it removes. -/
  take : K → ℕ
  /-- What it appends. -/
  give : K → List M
  next : (K → List M) → L

/-- Agents `A` and their programs. -/
structure Exchanges (A K M L : Type*) where
  prog : A → L → Option (Exchange K M L)
  /-- How many messages a channel holds at most. -/
  cap : K → Option ℕ
  writer : K → A
  reader : K → A
  give_writer : ∀ {a l x k}, prog a l = some x → x.give k ≠ [] → writer k = a
  take_reader : ∀ {a l x k}, prog a l = some x → x.take k ≠ 0 → reader k = a

/-- The local states and what the channels hold. -/
structure ExchangeState (A K M L : Type*) where
  loc : A → L
  chan : K → List M

namespace Exchange

/-- **What is removed is there, and what is appended has room.** -/
structure Ready (cap : K → Option ℕ) (chan : K → List M) (x : Exchange K M L) : Prop where
  there : ∀ k, x.take k ≤ (chan k).length
  room : ∀ k, ∀ c ∈ cap k, (chan k).length + (x.give k).length ≤ c

/-- What an agent has after it. -/
def result (chan : K → List M) (x : Exchange K M L) : L :=
  x.next fun k => (chan k).take (x.take k)

/-- What the channels hold after it. -/
def after (chan : K → List M) (x : Exchange K M L) (k : K) : List M :=
  (chan k).drop (x.take k) ++ x.give k

end Exchange

namespace Exchanges

variable {N : Exchanges A K M L}

/-! ## Exchanges of different agents -/

section Commute

variable {x y : Exchange K M L} {a b : A} {l m : L}

theorem take_eq_zero (hx : N.prog a l = some x) {k : K} (hk : N.reader k ≠ a) : x.take k = 0 := by
  by_contra hne
  exact hk (N.take_reader hx hne)

theorem give_eq_nil (hx : N.prog a l = some x) {k : K} (hk : N.writer k ≠ a) :
    x.give k = [] := by
  by_contra hne
  exact hk (N.give_writer hx hne)

/-- The channels an agent reads, after an exchange of another. -/
theorem after_of_reader (hx : N.prog a l = some x) {chan : K → List M} {k : K}
    (hk : N.reader k ≠ a) : x.after chan k = chan k ++ x.give k := by
  rw [Exchange.after, take_eq_zero hx hk, List.drop_zero]

/-- **An exchange leaves the others ready.** -/
theorem ready_after (hab : b ≠ a) (hx : N.prog a l = some x) (hy : N.prog b m = some y)
    {chan : K → List M} (hxready : x.Ready N.cap chan) (hyready : y.Ready N.cap chan) :
    y.Ready N.cap (x.after chan) where
  there k := by
    by_cases hk : N.reader k = b
    · rw [after_of_reader hx (hk ▸ hab), List.length_append]
      exact (hyready.there k).trans (Nat.le_add_right _ _)
    · rw [take_eq_zero hy hk]
      exact Nat.zero_le _
  room k c hc := by
    rw [Exchange.after, List.length_append, List.length_drop]
    by_cases hk : N.writer k = b
    · have hroom := hyready.room k c hc
      rw [give_eq_nil hx (hk ▸ hab), List.length_nil]
      omega
    · have hroom := hxready.room k c hc
      rw [give_eq_nil hy hk, List.length_nil]
      omega

/-- And does not change what they get. -/
theorem result_after (hab : b ≠ a) (hx : N.prog a l = some x) (hy : N.prog b m = some y)
    {chan : K → List M} (hyready : y.Ready N.cap chan) :
    y.result (x.after chan) = y.result chan := by
  refine congrArg y.next (funext fun k => ?_)
  by_cases hk : N.reader k = b
  · rw [after_of_reader hx (hk ▸ hab), List.take_append_of_le_length (hyready.there k)]
  · rw [take_eq_zero hy hk, List.take_zero, List.take_zero]

end Commute

/-! ## Moves -/

variable [DecidableEq A]

open Classical in
/-- An agent moves. -/
noncomputable def step (N : Exchanges A K M L) (s : ExchangeState A K M L) (a : A) :
    Option (ExchangeState A K M L) :=
  (N.prog a (s.loc a)).bind fun x =>
    if x.Ready N.cap s.chan then
      some ⟨Function.update s.loc a (x.result s.chan), x.after s.chan⟩
    else none

variable {s t : ExchangeState A K M L} {a : A} {x : Exchange K M L}

theorem step_eq_some (hprog : N.prog a (s.loc a) = some x) (hready : x.Ready N.cap s.chan) :
    N.step s a = some ⟨Function.update s.loc a (x.result s.chan), x.after s.chan⟩ := by
  rw [step, hprog, Option.bind_some, if_pos hready]

theorem exists_of_step (h : N.step s a = some t) : ∃ x, N.prog a (s.loc a) = some x ∧
    x.Ready N.cap s.chan ∧
      t = ⟨Function.update s.loc a (x.result s.chan), x.after s.chan⟩ := by
  obtain ⟨x, hprog, hx⟩ := Option.bind_eq_some_iff.mp h
  obtain ⟨hready, rfl⟩ := Option.ite_none_right_eq_some.mp hx |>.imp_right Option.some.inj
  exact ⟨x, hprog, hready, rfl⟩

/-! ## Moves side by side -/

/-- Some agents have made an exchange each. -/
def sync (N : Exchanges A K M L) (x : A → Exchange K M L) (as : List A)
    (s : ExchangeState A K M L) : ExchangeState A K M L where
  loc a := if a ∈ as then (x a).result s.chan else s.loc a
  chan k := (s.chan k).drop (if N.reader k ∈ as then (x (N.reader k)).take k else 0) ++
    if N.writer k ∈ as then (x (N.writer k)).give k else []

/-- **Agents that are all ready can move together.** -/
theorem reaches_sync {x : A → Exchange K M L} {as : List A} (hnodup : as.Nodup)
    (hprog : ∀ a ∈ as, N.prog a (s.loc a) = some (x a))
    (hready : ∀ a ∈ as, (x a).Ready N.cap s.chan) : Reaches N.step s (N.sync x as s) := by
  induction as generalizing s with
  | nil =>
    have hsame : N.sync x [] s = s := by
      simp [sync]
    rw [hsame]
    exact .refl s
  | cons a as ih =>
    obtain ⟨hnot, hnodup⟩ := List.nodup_cons.mp hnodup
    have hne {b : A} (hb : b ∈ as) : b ≠ a := fun heq => hnot (heq ▸ hb)
    have hpa := hprog a List.mem_cons_self
    have hra := hready a List.mem_cons_self
    have hprog' : ∀ b ∈ as,
        N.prog b (Function.update s.loc a ((x a).result s.chan) b) = some (x b) := by
      intro b hb
      rw [Function.update_of_ne (hne hb)]
      exact hprog b (List.mem_cons_of_mem _ hb)
    have hready' : ∀ b ∈ as, (x b).Ready N.cap ((x a).after s.chan) := fun b hb =>
      ready_after (hne hb) hpa (hprog b (List.mem_cons_of_mem _ hb)) hra
        (hready b (List.mem_cons_of_mem _ hb))
    have hrest := ih (s := ⟨Function.update s.loc a ((x a).result s.chan), (x a).after s.chan⟩)
      hnodup hprog' hready'
    refine .head (step_eq_some hpa hra) ?_
    convert hrest using 1
    refine congrArg₂ ExchangeState.mk (funext fun b => ?_) (funext fun k => ?_)
    · by_cases hb : b ∈ as
      · have hpb := hprog b (List.mem_cons_of_mem _ hb)
        have hrb := hready b (List.mem_cons_of_mem _ hb)
        simp only [List.mem_cons, hb, or_true, if_true]
        exact (result_after (hne hb) hpa hpb hrb).symm
      · by_cases hba : b = a
        · subst hba
          simp [hb]
        · simp [hb, hba]
    · by_cases hr : N.reader k = a
      · by_cases hw : N.writer k = a
        · simp [hr, hw, hnot, Exchange.after]
        · simp [hr, hw, hnot, Exchange.after, give_eq_nil hpa hw]
      · have hdrop : ((x a).after s.chan k).drop
            (if N.reader k ∈ as then (x (N.reader k)).take k else 0) =
            (s.chan k).drop (if N.reader k ∈ as then (x (N.reader k)).take k else 0) ++
              (x a).give k := by
          rw [after_of_reader hpa hr]
          refine List.drop_append_of_le_length ?_
          split
          case isTrue hmem => exact (hready _ (List.mem_cons_of_mem _ hmem)).there k
          case isFalse => exact Nat.zero_le _
        by_cases hw : N.writer k = a
        · simp [hr, hw, hnot, hdrop]
        · simp [hr, hw, hdrop, give_eq_nil hpa hw]

end Exchanges

end Machinery
