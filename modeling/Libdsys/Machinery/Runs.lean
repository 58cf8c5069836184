import Mathlib.Logic.Relation
import Mathlib.Data.List.Infix

/-!
# Machinery/Runs — runs of a partial step function

A system is a step function `step : σ → α → Option σ`: `none` is a step that is not enabled.  A run
is a list of actions, and everything proved about runs is one of eleven rules:

* `Reaches.invariant` — what one step preserves, every run preserves.
* `Reaches.simulates` — a step-by-step simulation carries a run to a run.
* `Reaches.follows` — a machine that keeps a history has the same runs.
* `run_simulates` — the same, action by action.
* `run_bounded` — a measure that every step uses up bounds the runs.
* `exists_halted` — under such a measure, every state leads to one where nothing is enabled.
* `exists_end` — and so where no run is longer than some bound.
* `along_iff` — which runs keep a property in all their states.
* `Diamond.agree` — if the steps of different actions commute, what two runs from one state
  have observed of an agent is comparable.
* `Diamond.reaches_halted` — and where one run has halted, every other can end.
* `Diamond.run_length` — after as many steps.
-/

namespace Machinery

variable {σ τ α β : Type*}

/-- **The state a list of actions leads to** — `none` as soon as one of them is not enabled. -/
def run (step : σ → α → Option σ) (s : σ) (as : List α) : Option σ := as.foldlM step s

@[simp] theorem run_nil (step : σ → α → Option σ) (s : σ) : run step s [] = some s := rfl

@[simp] theorem run_cons (step : σ → α → Option σ) (s : σ) (a : α) (as : List α) :
    run step s (a :: as) = (step s a).bind fun t => run step t as := rfl

theorem run_append (step : σ → α → Option σ) (s : σ) (as bs : List α) :
    run step s (as ++ bs) = (run step s as).bind fun t => run step t bs :=
  List.foldlM_append

/-- `t` is reached from `s` by some run. -/
def Reaches (step : σ → α → Option σ) (s t : σ) : Prop := ∃ as, run step s as = some t

namespace Reaches

variable {step : σ → α → Option σ} {s t u : σ}

theorem refl (s : σ) : Reaches step s s := ⟨[], rfl⟩

theorem single {a : α} (h : step s a = some t) : Reaches step s t := ⟨[a], by simp [h]⟩

theorem trans (hst : Reaches step s t) (htu : Reaches step t u) : Reaches step s u := by
  obtain ⟨as, has⟩ := hst
  obtain ⟨bs, hbs⟩ := htu
  exact ⟨as ++ bs, by rw [run_append, has]; exact hbs⟩

instance : Trans (Reaches step) (Reaches step) (Reaches step) := ⟨trans⟩

theorem tail {a : α} (hst : Reaches step s t) (h : step t a = some u) : Reaches step s u :=
  hst.trans (single h)

theorem head {a : α} (h : step s a = some t) (htu : Reaches step t u) : Reaches step s u :=
  (single h).trans htu

/-- **The invariant rule**: what every step preserves holds wherever a run leads. -/
theorem invariant {P : σ → Prop} (hstep : ∀ s a t, P s → step s a = some t → P t)
    (h : Reaches step s t) (hs : P s) : P t := by
  obtain ⟨as, has⟩ := h
  induction as generalizing s with
  | nil =>
    obtain rfl : s = t := Option.some.inj has
    exact hs
  | cons a as ih =>
    rw [run_cons, Option.bind_eq_some_iff] at has
    obtain ⟨s', ha, hrest⟩ := has
    exact ih (hstep s a s' hs ha) hrest

/-- Something is enabled where a run goes on. -/
theorem exists_step (h : Reaches step s t) (hne : s ≠ t) : ∃ a u, step s a = some u := by
  obtain ⟨as, has⟩ := h
  cases as with
  | nil => exact absurd (Option.some.inj has) hne
  | cons a as =>
    obtain ⟨u, ha, -⟩ := Option.bind_eq_some_iff.mp has
    exact ⟨a, u, ha⟩

/-- **The simulation rule**: if every step from related states is answered by a run that relates
them again, so is every run. -/
theorem simulates {step' : τ → β → Option τ} {R : σ → τ → Prop}
    (hstep : ∀ s a t s', R s s' → step s a = some t → ∃ t', Reaches step' s' t' ∧ R t t')
    (h : Reaches step s t) {s' : τ} (hs : R s s') : ∃ t', Reaches step' s' t' ∧ R t t' := by
  refine h.invariant (P := fun x => ∃ x', Reaches step' s' x' ∧ R x x') ?_ ⟨s', refl s', hs⟩
  rintro x a y ⟨x', hx, hR⟩ ha
  obtain ⟨y', hy, hR'⟩ := hstep x a y x' hR ha
  exact ⟨y', hx.trans hy, hR'⟩

/-- **The rule of history**: a machine that takes the same steps and keeps more follows every
run. -/
theorem follows {step' : τ → α → Option τ} (proj : τ → σ) {x : τ}
    (hstep : ∀ x a t, step (proj x) a = some t → ∃ y, step' x a = some y ∧ proj y = t)
    (h : Reaches step (proj x) t) : ∃ y, Reaches step' x y ∧ proj y = t := by
  refine h.simulates (R := fun s x => proj x = s) ?_ rfl
  rintro s a t x rfl ha
  obtain ⟨y, hy, ht⟩ := hstep x a t ha
  exact ⟨y, single hy, ht⟩

end Reaches

/-- The steps that meet a condition on the state before them. -/
def restrict (ok : σ → α → Prop) [∀ s a, Decidable (ok s a)] (step : σ → α → Option σ) (s : σ)
    (a : α) : Option σ := if ok s a then step s a else none

theorem restrict_eq_some {ok : σ → α → Prop} [∀ s a, Decidable (ok s a)] {step : σ → α → Option σ}
    {s t : σ} {a : α} : restrict ok step s a = some t ↔ ok s a ∧ step s a = some t :=
  Option.ite_none_right_eq_some

/-- A run of restricted steps is a run. -/
theorem run_of_restrict {ok : σ → α → Prop} [∀ s a, Decidable (ok s a)] {step : σ → α → Option σ}
    {s t : σ} {as : List α} (h : run (restrict ok step) s as = some t) :
    run step s as = some t := by
  induction as generalizing s with
  | nil => exact h
  | cons a as ih =>
    rw [run_cons, Option.bind_eq_some_iff] at h ⊢
    obtain ⟨u, ha, hrest⟩ := h
    exact ⟨u, (restrict_eq_some.mp ha).2, ih hrest⟩

/-- The weaker of two conditions goes without saying. -/
theorem restrict_restrict {ok ok' : σ → α → Prop} [∀ s a, Decidable (ok s a)]
    [∀ s a, Decidable (ok' s a)] {step : σ → α → Option σ} (h : ∀ s a, ok s a → ok' s a) :
    restrict ok (restrict ok' step) = restrict ok step := by
  funext s a
  rw [restrict, restrict, restrict]
  by_cases hok : ok s a
  · rw [if_pos hok, if_pos hok, if_pos (h s a hok)]
  · rw [if_neg hok, if_neg hok]

/-- **The simulation rule for runs**: if every step from related states is answered by a run that
shows the same actions and relates the states again, so is every run. -/
theorem run_simulates {step : σ → α → Option σ} {step' : τ → α → Option τ} {visible : α → Bool}
    {R : σ → τ → Prop} (hstep : ∀ s a t s', R s s' → step s a = some t →
      ∃ bs t', run step' s' bs = some t' ∧ bs.filter visible = [a].filter visible ∧ R t t')
    {s t : σ} {s' : τ} {as : List α} (hs : R s s') (hrun : run step s as = some t) :
    ∃ bs t', run step' s' bs = some t' ∧ bs.filter visible = as.filter visible ∧ R t t' := by
  induction as generalizing s s' with
  | nil =>
    obtain rfl : s = t := Option.some.inj hrun
    exact ⟨[], s', rfl, rfl, hs⟩
  | cons a as ih =>
    rw [run_cons, Option.bind_eq_some_iff] at hrun
    obtain ⟨u, ha, hrest⟩ := hrun
    obtain ⟨bs, u', hbs, hvisible, hu⟩ := hstep s a u s' hs ha
    obtain ⟨bs', t', hbs', hvisible', ht⟩ := ih hu hrest
    refine ⟨bs ++ bs', t', ?_, ?_, ht⟩
    · rw [run_append, hbs, Option.bind_some, hbs']
    · rw [List.filter_append, hvisible, hvisible', ← List.filter_append, List.singleton_append]

/-- **The variant rule**: where every step uses up some of a measure, it bounds the runs. -/
theorem run_bounded {step : σ → α → Option σ} {I : σ → Prop} {measure : σ → ℕ}
    (hstep : ∀ s a t, I s → step s a = some t → I t ∧ measure t < measure s) {s t : σ}
    {as : List α} (hs : I s) (hrun : run step s as = some t) :
    I t ∧ as.length + measure t ≤ measure s := by
  induction as generalizing s with
  | nil =>
    obtain rfl : s = t := Option.some.inj hrun
    exact ⟨hs, (Nat.zero_add _).le⟩
  | cons a as ih =>
    rw [run_cons, Option.bind_eq_some_iff] at hrun
    obtain ⟨u, ha, hrest⟩ := hrun
    obtain ⟨hu, hlt⟩ := hstep s a u hs ha
    obtain ⟨ht, hle⟩ := ih hu hrest
    exact ⟨ht, by rw [List.length_cons]; omega⟩

/-- **The rule of maximal runs**: under such a measure some run goes on until nothing is enabled. -/
theorem exists_halted {step : σ → α → Option σ} {I : σ → Prop} {measure : σ → ℕ}
    (hstep : ∀ s a t, I s → step s a = some t → I t ∧ measure t < measure s) {s : σ} (hs : I s) :
    ∃ t, Reaches step s t ∧ I t ∧ ∀ a, step t a = none := by
  induction hm : measure s using Nat.strong_induction_on generalizing s with
  | _ m ih =>
    by_cases hhalt : ∀ a, step s a = none
    · exact ⟨s, .refl s, hs, hhalt⟩
    · obtain ⟨a, ha⟩ := not_forall.mp hhalt
      obtain ⟨u, hu⟩ := Option.ne_none_iff_exists'.mp ha
      obtain ⟨hIu, hlt⟩ := hstep s a u hs hu
      obtain ⟨t, hut, ht⟩ := ih (measure u) (hm ▸ hlt) hIu rfl
      exact ⟨t, hut.head hu, ht⟩

/-- **Where no run is longer than some bound**, one of them leads to where nothing is enabled. -/
theorem exists_end {step : σ → α → Option σ} {s : σ} {B : ℕ}
    (hB : ∀ as t, run step s as = some t → as.length ≤ B) :
    ∃ as t, run step s as = some t ∧ ∀ a, step t a = none := by
  by_contra hnone
  push Not at hnone
  have hlong (n : ℕ) : ∃ as t, run step s as = some t ∧ as.length = n := by
    induction n with
    | zero => exact ⟨[], s, rfl, rfl⟩
    | succ n ih =>
      obtain ⟨as, t, hrun, rfl⟩ := ih
      obtain ⟨a, ha⟩ := hnone as t hrun
      obtain ⟨u, hu⟩ := Option.ne_none_iff_exists'.mp ha
      exact ⟨as ++ [a], u, by rw [run_append, hrun]; simp [hu], by simp⟩
  obtain ⟨as, t, hrun, hlen⟩ := hlong (B + 1)
  have hle := hB as t hrun
  omega

/-- `P` holds in every state of a run. -/
def Along (step : σ → α → Option σ) (P : σ → Prop) : σ → List α → Prop
  | s, [] => P s
  | s, a :: as => P s ∧ ∀ t, step s a = some t → Along step P t as

/-- In a run of restricted steps, the states are those of the steps. -/
theorem along_restrict {ok : σ → α → Prop} [∀ s a, Decidable (ok s a)] {step : σ → α → Option σ}
    {P : σ → Prop} {s t : σ} {as : List α} (hrun : run (restrict ok step) s as = some t) :
    Along (restrict ok step) P s as ↔ Along step P s as := by
  induction as generalizing s with
  | nil => exact Iff.rfl
  | cons a as ih =>
    rw [run_cons, Option.bind_eq_some_iff] at hrun
    obtain ⟨u, ha, hrest⟩ := hrun
    have hstep := (restrict_eq_some.mp ha).2
    refine and_congr_right fun _ => ⟨fun h v hv => ?_, fun h v hv => ?_⟩
    · obtain rfl : u = v := Option.some.inj (hstep.symm.trans hv)
      exact (ih hrest).mp (h u ha)
    · obtain rfl : u = v := Option.some.inj (ha.symm.trans hv)
      exact (ih hrest).mpr (h u hstep)

/-- **What exactly keeps `P` along a run** — an invariant that implies `P` is kept by the steps that
meet a condition, and every other step breaks `P`. -/
theorem along_iff {step : σ → α → Option σ} {ok : σ → α → Prop} [∀ s a, Decidable (ok s a)]
    {I P : σ → Prop} (hP : ∀ s, I s → P s)
    (hkeep : ∀ s a t, I s → ok s a → step s a = some t → I t)
    (hbreak : ∀ s a t, I s → ¬ok s a → step s a = some t → ¬P t) {s t : σ} {as : List α}
    (hs : I s) (hrun : run step s as = some t) :
    Along step P s as ↔ (run (restrict ok step) s as).isSome := by
  induction as generalizing s with
  | nil => exact ⟨fun _ => rfl, fun _ => hP s hs⟩
  | cons a as ih =>
    rw [run_cons, Option.bind_eq_some_iff] at hrun
    obtain ⟨u, ha, hrest⟩ := hrun
    by_cases hok : ok s a
    · have hstep : restrict ok step s a = some u := restrict_eq_some.mpr ⟨hok, ha⟩
      rw [run_cons, hstep, Option.bind_some, ← ih (hkeep s a u hs hok ha) hrest]
      refine ⟨fun h => h.2 u ha, fun h => ⟨hP s hs, fun v hv => ?_⟩⟩
      obtain rfl : u = v := Option.some.inj (ha.symm.trans hv)
      exact h
    · have hstep : restrict ok step s a = none := if_neg hok
      rw [run_cons, hstep]
      refine ⟨fun h => absurd ?_ (hbreak s a u hs hok ha), nofun⟩
      have hu := h.2 u ha
      cases as with
      | nil => exact hu
      | cons b bs => exact hu.1

/-! ## Confluence

Two actions of one agent cannot both be taken, so the only branching of a system of deterministic
agents is between agents — and a diamond there closes every pair of runs. -/

/-- Different actions commute: after either, the other is still enabled, and both orders end in one
state. -/
def Diamond (step : σ → α → Option σ) : Prop :=
  ∀ s a b t u, a ≠ b → step s a = some t → step s b = some u →
    ∃ v, step t b = some v ∧ step u a = some v

theorem reaches_iff_reflTransGen {step : σ → α → Option σ} {s t : σ} :
    Reaches step s t ↔ Relation.ReflTransGen (fun x y => ∃ a, step x a = some y) s t := by
  constructor
  · refine fun h => h.invariant (fun x a y hx ha => hx.tail ⟨a, ha⟩) .refl
  · intro h
    induction h with
    | refl => exact Reaches.refl _
    | tail _ hyz ih =>
      obtain ⟨a, ha⟩ := hyz
      exact ih.tail ha

/-- **Two runs from one state can be continued to one state.** -/
theorem Diamond.join {step : σ → α → Option σ} (hd : Diamond step) {s t u : σ}
    (ht : Reaches step s t) (hu : Reaches step s u) : ∃ v, Reaches step t v ∧ Reaches step u v := by
  have close : ∀ x y z, (∃ a, step x a = some y) → (∃ b, step x b = some z) →
      ∃ w, Relation.ReflGen (fun p q => ∃ a, step p a = some q) y w ∧
        Relation.ReflTransGen (fun p q => ∃ a, step p a = some q) z w := by
    rintro x y z ⟨a, ha⟩ ⟨b, hb⟩
    by_cases hab : a = b
    · obtain rfl : y = z := Option.some.inj (ha.symm.trans (hab ▸ hb))
      exact ⟨y, .refl, .refl⟩
    · obtain ⟨w, hyw, hzw⟩ := hd x a b y z hab ha hb
      exact ⟨w, .single ⟨b, hyw⟩, .single ⟨a, hzw⟩⟩
  obtain ⟨v, htv, huv⟩ := Relation.church_rosser close (reaches_iff_reflTransGen.mp ht)
    (reaches_iff_reflTransGen.mp hu)
  exact ⟨v, reaches_iff_reflTransGen.mpr htv, reaches_iff_reflTransGen.mpr huv⟩

/-- **A halted state is reached from everywhere**: no run can miss it. -/
theorem Diamond.reaches_halted {step : σ → α → Option σ} (hd : Diamond step) {s t u : σ}
    (ht : Reaches step s t) (hu : Reaches step s u) (hhalt : ∀ a, step u a = none) :
    Reaches step t u := by
  obtain ⟨v, htv, huv⟩ := hd.join ht hu
  obtain rfl : u = v := by
    by_contra hne
    obtain ⟨a, w, hw⟩ := huv.exists_step hne
    exact absurd hw (by simp [hhalt a])
  exact htv

/-- One step more is one step less to go. -/
theorem Diamond.run_step {step : σ → α → Option σ} (hd : Diamond step) {s t u : σ} {as : List α}
    (hu : run step s as = some u) (hhalt : ∀ a, step u a = none) {b : α} (hb : step s b = some t) :
    ∃ bs, run step t bs = some u ∧ bs.length + 1 = as.length := by
  induction as generalizing s t with
  | nil =>
    obtain rfl : s = u := Option.some.inj hu
    exact absurd hb (by simp [hhalt b])
  | cons a as ih =>
    rw [run_cons, Option.bind_eq_some_iff] at hu
    obtain ⟨v, ha, hrest⟩ := hu
    by_cases hab : a = b
    · obtain rfl : v = t := Option.some.inj (ha.symm.trans (hab ▸ hb))
      exact ⟨as, hrest, rfl⟩
    · obtain ⟨w, hvw, htw⟩ := hd s a b v t hab ha hb
      obtain ⟨bs, hbs, hlen⟩ := ih hrest hvw
      refine ⟨a :: bs, ?_, congrArg (· + 1) hlen⟩
      rw [run_cons, htw]
      exact hbs

/-- **All runs to a halted state are equally long**, and no run is longer. -/
theorem Diamond.run_length {step : σ → α → Option σ} (hd : Diamond step) {s t u : σ}
    {as bs : List α} (hu : run step s as = some u) (hhalt : ∀ a, step u a = none)
    (ht : run step s bs = some t) :
    ∃ cs, run step t cs = some u ∧ bs.length + cs.length = as.length := by
  induction bs generalizing s as with
  | nil =>
    obtain rfl : s = t := Option.some.inj ht
    exact ⟨as, hu, Nat.zero_add _⟩
  | cons b bs ih =>
    rw [run_cons, Option.bind_eq_some_iff] at ht
    obtain ⟨v, hb, hrest⟩ := ht
    obtain ⟨as', hu', hlen⟩ := hd.run_step hu hhalt hb
    obtain ⟨cs, hcs, hlen'⟩ := ih hu' hrest
    exact ⟨cs, hcs, by rw [List.length_cons]; omega⟩

/-- **Schedule independence**: when different actions commute and an observation only ever grows at
its end, any two runs agree on the common prefix of what they observe. -/
theorem Diamond.agree {step : σ → α → Option σ} (hd : Diamond step) {ω : Type*} {obs : σ → List ω}
    (hobs : ∀ s a t, step s a = some t → obs s <+: obs t) {s t u : σ}
    (ht : Reaches step s t) (hu : Reaches step s u) : obs t <+: obs u ∨ obs u <+: obs t := by
  obtain ⟨v, htv, huv⟩ := hd.join ht hu
  have grows : ∀ {x y}, Reaches step x y → obs x <+: obs y := fun {x y} h =>
    h.invariant (P := fun z => obs x <+: obs z) (fun y a z hy ha => hy.trans (hobs y a z ha))
      (List.prefix_refl _)
  exact List.prefix_or_prefix_of_prefix (grows htv) (grows huv)

end Machinery
