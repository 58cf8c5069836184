import Libdsys.Machinery.Runs
import Mathlib.Data.List.Basic
import Mathlib.Logic.Function.Basic

/-!
# Machinery/Kahn — networks of agents over channels

Every agent runs a program of its own and every channel has one writer and one reader.  A write
waits for room, a read for as many messages as it wants, and no agent can tell how long it waited:
the order in which the agents move does not show.

* `Kahn.diamond` — the moves of different agents commute.
* `Kahn.agree` — what an agent has observed in two runs from one state is comparable.
* `Kahn.step_glue` — a move inside a part of a net is a move of the net.
* `Kahn.reaches_parts` / `Kahn.reaches_sweep` — so parts can move side by side, and an agent can go
  through them.
-/

namespace Machinery

/-- What an agent with local states `L` does next on channels `K` of messages `M`. -/
inductive KahnOp {K : Type*} (M : K → Type*) (L : Type*)
  | halt
  | skip (next : L)
  /-- Append messages, if there is room for all of them. -/
  | put (k : K) (ms : List (M k)) (next : L)
  /-- Remove the first `n` messages, if there are so many. -/
  | take (k : K) (n : ℕ) (next : List (M k) → L)

/-- A network of agents `A`. -/
structure Kahn {A K : Type*} (M : K → Type*) (L : A → Type*) where
  prog : (a : A) → L a → KahnOp M (L a)
  /-- How many messages a channel holds at most. -/
  cap : K → Option ℕ
  writer : K → A
  reader : K → A
  put_writer : ∀ {a l k ms next}, prog a l = .put k ms next → writer k = a
  take_reader : ∀ {a l k n next}, prog a l = .take k n next → reader k = a

/-- The local states and what the channels hold. -/
structure KahnState {A K : Type*} (M : K → Type*) (L : A → Type*) where
  loc : (a : A) → L a
  chan : (k : K) → List (M k)

namespace Kahn

variable {A K : Type*} {M : K → Type*} {L : A → Type*}

/-- What an operation makes of its agent and the channels. -/
def effect [DecidableEq K] {l : Type*} (cap : K → Option ℕ) (chan : (k : K) → List (M k)) :
    KahnOp M l → Option (l × ((k : K) → List (M k)))
  | .halt => none
  | .skip next => some (next, chan)
  | .put k ms next =>
    if ∀ c ∈ cap k, (chan k).length + ms.length ≤ c then
      some (next, Function.update chan k (chan k ++ ms))
    else none
  | .take k n next =>
    if n ≤ (chan k).length then
      some (next ((chan k).take n), Function.update chan k ((chan k).drop n))
    else none

variable [DecidableEq A] [DecidableEq K]

/-- An agent moves. -/
def step (N : Kahn M L) (s : KahnState M L) (a : A) : Option (KahnState M L) :=
  (effect N.cap s.chan (N.prog a (s.loc a))).map fun x => ⟨Function.update s.loc a x.1, x.2⟩

variable {N : Kahn M L} {s : KahnState M L} {a : A}

theorem step_halt (h : N.prog a (s.loc a) = .halt) : N.step s a = none := by
  rw [step, h, effect, Option.map_none]

/-- A read waits for its messages. -/
theorem step_take_wait {k : K} {n : ℕ} {next : List (M k) → L a}
    (h : N.prog a (s.loc a) = .take k n next) (hlen : (s.chan k).length < n) :
    N.step s a = none := by
  rw [step, h, effect, if_neg (Nat.not_le.mpr hlen), Option.map_none]

theorem step_skip {next : L a} (h : N.prog a (s.loc a) = .skip next) :
    N.step s a = some ⟨Function.update s.loc a next, s.chan⟩ := by
  rw [step, h, effect, Option.map_some]

theorem step_put {k : K} {ms : List (M k)} {next : L a} (h : N.prog a (s.loc a) = .put k ms next)
    (hroom : ∀ c ∈ N.cap k, (s.chan k).length + ms.length ≤ c) :
    N.step s a = some ⟨Function.update s.loc a next,
      Function.update s.chan k (s.chan k ++ ms)⟩ := by
  rw [step, h, effect, if_pos hroom, Option.map_some]

theorem step_take {k : K} {n : ℕ} {next : List (M k) → L a}
    (h : N.prog a (s.loc a) = .take k n next) (hlen : n ≤ (s.chan k).length) :
    N.step s a = some ⟨Function.update s.loc a (next ((s.chan k).take n)),
      Function.update s.chan k ((s.chan k).drop n)⟩ := by
  rw [step, h, effect, if_pos hlen, Option.map_some]

/-- A write and a read of one channel commute. -/
theorem put_take_comm {l m : Type*} {cap : K → Option ℕ} {chan : (k : K) → List (M k)} {k : K}
    {ms : List (M k)} {next : l} {n : ℕ} {next' : List (M k) → m} {x y}
    (hx : effect cap chan (.put k ms next) = some x)
    (hy : effect cap chan (.take k n next') = some y) :
    ∃ chan', effect cap y.2 (.put k ms next) = some (x.1, chan') ∧
      effect cap x.2 (.take k n next') = some (y.1, chan') := by
  simp only [effect, Option.ite_none_right_eq_some, Option.some.injEq] at hx hy
  obtain ⟨hroom, rfl⟩ := hx
  obtain ⟨hlen, rfl⟩ := hy
  refine ⟨Function.update chan k ((chan k).drop n ++ ms), ?_, ?_⟩
  · have hroom' : ∀ c ∈ cap k, ((chan k).drop n).length + ms.length ≤ c := fun c hc => by
      have := hroom c hc
      rw [List.length_drop]
      omega
    simp only [effect, Function.update_self, Function.update_idem, if_pos hroom']
  · have hlen' : n ≤ (chan k ++ ms).length := by
      rw [List.length_append]
      omega
    simp only [effect, Function.update_self, Function.update_idem, if_pos hlen',
      List.take_append_of_le_length hlen, List.drop_append_of_le_length hlen]

/-- The channel an operation is on. -/
def chan? {l : Type*} : KahnOp M l → Option K
  | .halt => none
  | .skip _ => none
  | .put k _ _ => some k
  | .take k _ _ => some k

/-- An operation changes its own channel only, and depends on no other. -/
theorem effect_update {l : Type*} {cap : K → Option ℕ} {chan : (k : K) → List (M k)}
    {op : KahnOp M l} {x} (hx : effect cap chan op = some x) {k : K} (hk : chan? op ≠ some k)
    (ms : List (M k)) :
    x.2 k = chan k ∧
      effect cap (Function.update chan k ms) op = some (x.1, Function.update x.2 k ms) := by
  cases op with
  | halt => cases hx
  | skip next =>
    obtain rfl := Option.some.inj hx
    exact ⟨rfl, rfl⟩
  | put j js next | take j n next =>
    have hne : j ≠ k := fun heq => hk (congrArg some heq)
    simp only [effect, Option.ite_none_right_eq_some, Option.some.injEq] at hx
    obtain ⟨hok, rfl⟩ := hx
    refine ⟨Function.update_of_ne hne.symm _ _, ?_⟩
    simp only [effect, Function.update_of_ne hne, if_pos hok]
    rw [Function.update_comm hne]

/-- Operations on different channels commute. -/
theorem effect_comm {l m : Type*} {cap : K → Option ℕ} {chan : (k : K) → List (M k)}
    {opx : KahnOp M l} {opy : KahnOp M m} {x y} (hx : effect cap chan opx = some x)
    (hy : effect cap chan opy = some y) (hne : ∀ k, chan? opx = some k → chan? opy ≠ some k) :
    ∃ chan', effect cap y.2 opx = some (x.1, chan') ∧ effect cap x.2 opy = some (y.1, chan') := by
  cases opx with
  | halt => cases hx
  | skip next =>
    obtain rfl := Option.some.inj hx
    exact ⟨y.2, rfl, hy⟩
  | put k ms next | take k n next =>
    simp only [effect, Option.ite_none_right_eq_some, Option.some.injEq] at hx
    obtain ⟨hok, rfl⟩ := hx
    obtain ⟨hsame, hy'⟩ := effect_update hy (hne k rfl) _
    refine ⟨_, ?_, hy'⟩
    simp only [effect, hsame, if_pos hok]

/-- **The moves of different agents commute**: on one channel one of them writes and the other
reads. -/
theorem diamond (N : Kahn M L) : Diamond N.step := by
  intro s a b t u hab ht hu
  obtain ⟨x, hx, rfl⟩ := Option.map_eq_some_iff.mp ht
  obtain ⟨y, hy, rfl⟩ := Option.map_eq_some_iff.mp hu
  have hcomm : ∃ chan', effect N.cap y.2 (N.prog a (s.loc a)) = some (x.1, chan') ∧
      effect N.cap x.2 (N.prog b (s.loc b)) = some (y.1, chan') := by
    by_cases hsame : ∃ k, chan? (N.prog a (s.loc a)) = some k ∧ chan? (N.prog b (s.loc b)) = some k
    · obtain ⟨k, hka, hkb⟩ := hsame
      match ha : N.prog a (s.loc a), hb : N.prog b (s.loc b) with
      | .put j js next, .put j' js' next' =>
        rw [ha] at hka
        rw [hb] at hkb
        obtain rfl := Option.some.inj hka
        obtain rfl := Option.some.inj hkb
        exact absurd ((N.put_writer ha).symm.trans (N.put_writer hb)) hab
      | .take j n next, .take j' n' next' =>
        rw [ha] at hka
        rw [hb] at hkb
        obtain rfl := Option.some.inj hka
        obtain rfl := Option.some.inj hkb
        exact absurd ((N.take_reader ha).symm.trans (N.take_reader hb)) hab
      | .put j js next, .take j' n' next' =>
        rw [ha] at hka hx
        rw [hb] at hkb hy
        obtain rfl := Option.some.inj hka
        obtain rfl := Option.some.inj hkb
        exact put_take_comm hx hy
      | .take j n next, .put j' js' next' =>
        rw [ha] at hka hx
        rw [hb] at hkb hy
        obtain rfl := Option.some.inj hka
        obtain rfl := Option.some.inj hkb
        obtain ⟨chan', h₁, h₂⟩ := put_take_comm hy hx
        exact ⟨chan', h₂, h₁⟩
      | .halt, _ => simp [ha, chan?] at hka
      | .skip _, _ => simp [ha, chan?] at hka
      | _, .halt => simp [hb, chan?] at hkb
      | _, .skip _ => simp [hb, chan?] at hkb
    · exact effect_comm hx hy fun k hka hkb => hsame ⟨k, hka, hkb⟩
  obtain ⟨chan', hax, hby⟩ := hcomm
  refine ⟨⟨Function.update (Function.update s.loc a x.1) b y.1, chan'⟩, ?_, ?_⟩
  · simp only [step, Function.update_of_ne hab.symm, hby, Option.map_some]
  · simp only [step, Function.update_of_ne hab, hax, Option.map_some, Function.update_comm hab]

/-- An observation of an agent that its own moves only add to only grows. -/
theorem grows (N : Kahn M L) {ω : Type*} {a : A} (obs : L a → List ω)
    (hobs : ∀ {chan l x}, effect N.cap chan (N.prog a l) = some x → obs l <+: obs x.1)
    {s t : KahnState M L} {b : A} (hst : N.step s b = some t) :
    obs (s.loc a) <+: obs (t.loc a) := by
  obtain ⟨x, hx, rfl⟩ := Option.map_eq_some_iff.mp hst
  change obs (s.loc a) <+: obs (Function.update s.loc b x.1 a)
  rcases eq_or_ne b a with rfl | hne
  · rw [Function.update_self]
    exact hobs hx
  · rw [Function.update_of_ne hne.symm]

/-- **The order of the moves does not show**: an observation of an agent that only grows is
comparable in any two runs from one state. -/
theorem agree (N : Kahn M L) {ω : Type*} {a : A} {obs : L a → List ω}
    (hobs : ∀ {chan l x}, effect N.cap chan (N.prog a l) = some x → obs l <+: obs x.1)
    {s t u : KahnState M L} (ht : Reaches N.step s t) (hu : Reaches N.step s u) :
    obs (t.loc a) <+: obs (u.loc a) ∨ obs (u.loc a) <+: obs (t.loc a) :=
  N.diamond.agree (fun _ _ _ => N.grows obs hobs) ht hu

/-! ## Parts

A run of a net that has parts can be put together from runs of the parts: where agents and channels
have owners, every part has a state of its own, and what an agent does that uses a channel of its
part only changes the state of that part. -/

section Parts

variable {I : Type*} [DecidableEq I] {own : A → I} {ownK : K → I} {f : I → KahnState M L}

variable (own ownK) in
/-- The state of a net whose parts have the states `f`: of each, what the part owns. -/
def glue (f : I → KahnState M L) : KahnState M L where
  loc a := (f (own a)).loc a
  chan k := (f (ownK k)).chan k

variable (own) in
/-- An agent is somewhere else. -/
def setLoc (f : I → KahnState M L) (a : A) (l : L a) : I → KahnState M L :=
  Function.update f (own a) ⟨Function.update (f (own a)).loc a l, (f (own a)).chan⟩

variable (ownK) in
/-- A channel holds something else. -/
def setChan (f : I → KahnState M L) (k : K) (ms : List (M k)) : I → KahnState M L :=
  Function.update f (ownK k) ⟨(f (ownK k)).loc, Function.update (f (ownK k)).chan k ms⟩

omit [DecidableEq K] in
theorem glue_setLoc (a : A) (l : L a) : glue own ownK (setLoc own f a l) =
    ⟨Function.update (glue own ownK f).loc a l, (glue own ownK f).chan⟩ := by
  refine congrArg₂ KahnState.mk (funext fun b => ?_) (funext fun k => ?_)
  · by_cases hb : b = a
    · subst hb
      simp [setLoc]
    · rw [Function.update_of_ne hb, setLoc]
      by_cases hown : own b = own a
      · rw [hown, Function.update_self]
        exact (Function.update_of_ne hb _ _).trans (congrArg (fun i => (f i).loc b) hown.symm)
      · rw [Function.update_of_ne hown]
        rfl
  · rw [setLoc]
    by_cases hown : ownK k = own a
    · rw [hown, Function.update_self]
      exact congrArg (fun i => (f i).chan k) hown.symm
    · rw [Function.update_of_ne hown]
      rfl

omit [DecidableEq A] in
theorem glue_setChan (k : K) (ms : List (M k)) : glue own ownK (setChan ownK f k ms) =
    ⟨(glue own ownK f).loc, Function.update (glue own ownK f).chan k ms⟩ := by
  refine congrArg₂ KahnState.mk (funext fun a => ?_) (funext fun j => ?_)
  · rw [setChan]
    by_cases hown : own a = ownK k
    · rw [hown, Function.update_self]
      exact congrArg (fun i => (f i).loc a) hown.symm
    · rw [Function.update_of_ne hown]
      rfl
  · by_cases hj : j = k
    · subst hj
      simp [setChan]
    · rw [Function.update_of_ne hj, setChan]
      by_cases hown : ownK j = ownK k
      · rw [hown, Function.update_self]
        exact (Function.update_of_ne hj _ _).trans (congrArg (fun i => (f i).chan j) hown.symm)
      · rw [Function.update_of_ne hown]
        rfl

theorem step_glue_skip {next : L a} (h : N.prog a ((f (own a)).loc a) = .skip next) :
    N.step (glue own ownK f) a = some (glue own ownK (setLoc own f a next)) := by
  rw [glue_setLoc]
  exact step_skip h

theorem step_glue_put {k : K} {ms : List (M k)} {next : L a}
    (h : N.prog a ((f (own a)).loc a) = .put k ms next)
    (hroom : ∀ c ∈ N.cap k, ((f (ownK k)).chan k).length + ms.length ≤ c) :
    N.step (glue own ownK f) a = some (glue own ownK
      (setChan ownK (setLoc own f a next) k ((f (ownK k)).chan k ++ ms))) := by
  rw [glue_setChan, glue_setLoc]
  exact step_put h hroom

theorem step_glue_take {k : K} {n : ℕ} {next : List (M k) → L a}
    (h : N.prog a ((f (own a)).loc a) = .take k n next)
    (hlen : n ≤ ((f (ownK k)).chan k).length) :
    N.step (glue own ownK f) a = some (glue own ownK
      (setChan ownK (setLoc own f a (next (((f (ownK k)).chan k).take n))) k
        (((f (ownK k)).chan k).drop n))) := by
  rw [glue_setChan, glue_setLoc]
  exact step_take h hlen

variable (own ownK) in
/-- **The moves inside a part**: of an agent of it, on a channel of it. -/
def inside (N : Kahn M L) (i : I) : KahnState M L → A → Option (KahnState M L) :=
  restrict (fun s a => own a = i ∧ (chan? (N.prog a (s.loc a))).all (ownK · = i)) N.step

section Inside

variable {i : I}

theorem inside_skip (ha : own a = i) {next : L a} (h : N.prog a (s.loc a) = .skip next) :
    inside own ownK N i s a = some ⟨Function.update s.loc a next, s.chan⟩ :=
  restrict_eq_some.mpr ⟨⟨ha, by rw [h]; rfl⟩, step_skip h⟩

theorem inside_put {k : K} {ms : List (M k)} {next : L a} (ha : own a = i) (hk : ownK k = i)
    (h : N.prog a (s.loc a) = .put k ms next)
    (hroom : ∀ c ∈ N.cap k, (s.chan k).length + ms.length ≤ c) :
    inside own ownK N i s a = some ⟨Function.update s.loc a next,
      Function.update s.chan k (s.chan k ++ ms)⟩ :=
  restrict_eq_some.mpr ⟨⟨ha, by rw [h]; simp [chan?, hk]⟩, step_put h hroom⟩

theorem inside_take {k : K} {n : ℕ} {next : List (M k) → L a} (ha : own a = i) (hk : ownK k = i)
    (h : N.prog a (s.loc a) = .take k n next) (hlen : n ≤ (s.chan k).length) :
    inside own ownK N i s a = some ⟨Function.update s.loc a (next ((s.chan k).take n)),
      Function.update s.chan k ((s.chan k).drop n)⟩ :=
  restrict_eq_some.mpr ⟨⟨ha, by rw [h]; simp [chan?, hk]⟩, step_take h hlen⟩

/-- **The frame rule**: a move inside a part changes the state of that part. -/
theorem step_glue {u : KahnState M L} (h : inside own ownK N i (f i) a = some u) :
    N.step (glue own ownK f) a = some (glue own ownK (Function.update f i u)) := by
  obtain ⟨⟨rfl, hk⟩, hstep⟩ := restrict_eq_some.mp h
  match hop : N.prog a ((f (own a)).loc a) with
  | .halt => simp [step, hop, effect] at hstep
  | .skip next =>
    rw [step_skip hop] at hstep
    obtain rfl := Option.some.inj hstep
    exact step_glue_skip hop
  | .put k ms next =>
    have hown : ownK k = own a := by simpa [hop, chan?] using hk
    have hroom : ∀ c ∈ N.cap k, ((f (own a)).chan k).length + ms.length ≤ c := by
      simp only [step, hop, effect, Option.map_eq_some_iff, Option.ite_none_right_eq_some] at hstep
      obtain ⟨x, ⟨hroom, -⟩, -⟩ := hstep
      exact hroom
    rw [step_put hop hroom] at hstep
    obtain rfl := Option.some.inj hstep
    rw [step_glue_put hop (hown ▸ hroom)]
    simp [setChan, setLoc, hown]
  | .take k n next =>
    have hown : ownK k = own a := by simpa [hop, chan?] using hk
    have hlen : n ≤ ((f (own a)).chan k).length := by
      simp only [step, hop, effect, Option.map_eq_some_iff, Option.ite_none_right_eq_some] at hstep
      obtain ⟨x, ⟨hlen, -⟩, -⟩ := hstep
      exact hlen
    rw [step_take hop hlen] at hstep
    obtain rfl := Option.some.inj hstep
    rw [step_glue_take hop (hown ▸ hlen)]
    simp [setChan, setLoc, hown]

theorem reaches_glue {u : KahnState M L} (h : Reaches (inside own ownK N i) (f i) u) :
    Reaches N.step (glue own ownK f) (glue own ownK (Function.update f i u)) := by
  refine h.invariant (P := fun u => Reaches N.step (glue own ownK f)
    (glue own ownK (Function.update f i u))) (fun u b v hu hv => ?_) ?_
  · have hstep : inside own ownK N i (Function.update f i u i) b = some v := by
      rwa [Function.update_self]
    have hglue := step_glue (f := Function.update f i u) hstep
    rw [Function.update_idem] at hglue
    exact hu.tail hglue
  · rw [Function.update_eq_self]
    exact .refl _

/-- **Parts move side by side.** -/
theorem reaches_parts {l : List I} (hnodup : l.Nodup) {g : I → KahnState M L}
    (h : ∀ i ∈ l, Reaches (inside own ownK N i) (f i) (g i)) :
    Reaches N.step (glue own ownK f) (glue own ownK fun i => if i ∈ l then g i else f i) := by
  induction l generalizing f with
  | nil => exact .refl _
  | cons i l ih =>
    obtain ⟨hnot, hnodup⟩ := List.nodup_cons.mp hnodup
    have hi := reaches_glue (h i List.mem_cons_self)
    refine hi.trans ?_
    have hrest : ∀ j ∈ l, Reaches (inside own ownK N j) (Function.update f i (g i) j) (g j) := by
      intro j hj
      have hne : j ≠ i := fun heq => hnot (heq ▸ hj)
      rw [Function.update_of_ne hne]
      exact h j (List.mem_cons_of_mem _ hj)
    convert ih hnodup hrest using 2
    ext1 j
    by_cases hj : j = i
    · subst hj
      simp [hnot]
    · simp [hj]

/-- **An agent goes through the parts**, and does something with each. -/
theorem reaches_sweep {l : List I} (hnodup : l.Nodup) {j : I} (hj : j ∉ l)
    {y : List I → List I → KahnState M L} {g g' : I → KahnState M L}
    (hstep : ∀ pre i post (f : I → KahnState M L), l = pre ++ i :: post →
      f j = y pre (i :: post) → f i = g i → N.step (glue own ownK f) a =
        some (glue own ownK (Function.update (Function.update f j (y (pre ++ [i]) post)) i (g' i))))
    (hy : f j = y [] l) (hg : ∀ i ∈ l, f i = g i) :
    Reaches N.step (glue own ownK f) (glue own ownK
      (Function.update (fun i => if i ∈ l then g' i else f i) j (y l []))) := by
  suffices h : ∀ pre post (f : I → KahnState M L), l = pre ++ post → f j = y pre post →
      (∀ i ∈ post, f i = g i) → Reaches N.step (glue own ownK f) (glue own ownK
        (Function.update (fun i => if i ∈ post then g' i else f i) j (y l []))) from
    h [] l f rfl hy hg
  intro pre post
  induction post generalizing pre with
  | nil =>
    rintro f rfl hy -
    have hdone : Function.update (fun i => if i ∈ [] then g' i else f i) j (y (pre ++ []) []) =
        f := by
      simp [hy]
    rw [hdone]
    exact .refl _
  | cons i post ih =>
    intro f hl hy hg
    have hij : i ≠ j := by
      rintro rfl
      exact hj (by simp [hl])
    have hipost : i ∉ post := by
      rw [hl] at hnodup
      exact (List.nodup_cons.mp (List.nodup_append.mp hnodup).2.1).1
    have hjpost : j ∉ post := fun hmem => hj (by simp [hl, hmem])
    have hfirst := hstep pre i post f hl hy (hg i List.mem_cons_self)
    have hrest := ih (pre ++ [i])
      (Function.update (Function.update f j (y (pre ++ [i]) post)) i (g' i)) (by simp [hl])
      (by simp [hij.symm]) fun i' hi' => by
        have hi : i' ≠ i := fun heq => hipost (heq ▸ hi')
        have hj' : i' ≠ j := fun heq => hjpost (heq ▸ hi')
        simp [hi, hj', hg i' (List.mem_cons_of_mem _ hi')]
    refine .head hfirst ?_
    convert hrest using 2
    ext1 i'
    by_cases hi' : i' = j
    · subst hi'
      simp
    · by_cases hi : i' = i
      · subst hi
        simp [hi', hipost]
      · simp [hi', hi]

end Inside

end Parts

end Kahn

end Machinery
