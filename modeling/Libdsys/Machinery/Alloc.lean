import Mathlib.Data.List.Perm.Basic
import Mathlib.Data.List.Nodup

/-!
# Machinery/Alloc — allocations that may fail

A program that allocates, where the memory decides call by call which allocations fail.  A block is
the number of the call that returned it, so no two blocks are the same and a block freed twice is
seen twice among those freed.

    `if (!(a = x)) { undo; return NULL; }`   `ifNull x undo f`

A program that gives up at its first failure makes a fixed number of allocations when it does not:
`Takes held n x Q` says that `x` allocates `n` blocks and ends in `Q`, or frees the blocks it holds,
those in `held` included, and returns `NULL`.

* `Takes.ifNull` — the rule of the idiom: `undo` has to free what is held.
* `Takes.null_iff` — such a program returns `NULL` exactly when one of its allocations fails.

Of any other program, `CleansUp` says that it frees what it was given when it returns `NULL`.
-/

namespace Machinery

variable {σ α β : Type}

/-- Memory: which calls of the allocator fail, how many there were, the blocks freed, first one
first, and the rest of the state. -/
structure Mem (σ : Type) where
  fails : ℕ → Bool
  calls : ℕ
  freed : List ℕ
  rest : σ

namespace Mem

/-- Memory after `n` more calls and the blocks `bs` freed. -/
def after (m : Mem σ) (n : ℕ) (bs : List ℕ) : Mem σ :=
  { m with calls := m.calls + n, freed := m.freed ++ bs }

@[simp] theorem after_fails (m : Mem σ) (n : ℕ) (bs : List ℕ) :
    (m.after n bs).fails = m.fails := rfl

@[simp] theorem after_calls (m : Mem σ) (n : ℕ) (bs : List ℕ) :
    (m.after n bs).calls = m.calls + n := rfl

@[simp] theorem after_zero (m : Mem σ) : m.after 0 [] = m := by simp [after]

theorem after_after (m : Mem σ) (n n' : ℕ) (bs bs' : List ℕ) :
    (m.after n bs).after n' bs' = m.after (n + n') (bs ++ bs') := by
  simp [after, Nat.add_assoc]

/-- The next `n` calls succeed. -/
def Grants (m : Mem σ) (n : ℕ) : Prop := ∀ k < n, m.fails (m.calls + k) = false

/-- The next `j` calls succeed, and the one after them fails. -/
structure FailsAt (m : Mem σ) (j : ℕ) : Prop where
  before : m.Grants j
  fails : m.fails (m.calls + j) = true

theorem grants_zero (m : Mem σ) : m.Grants 0 := fun _ h => absurd h (Nat.not_lt_zero _)

theorem grants_add {m : Mem σ} {n k : ℕ} :
    m.Grants (n + k) ↔ m.Grants n ∧ (m.after n []).Grants k := by
  constructor
  · refine fun h => ⟨fun i hi => h i (by omega), fun i hi => ?_⟩
    simpa [Nat.add_assoc] using h (n + i) (by omega)
  · rintro ⟨hn, hk⟩ i hi
    rcases Nat.lt_or_ge i n with hlt | hge
    · exact hn i hlt
    · obtain ⟨j, rfl⟩ := Nat.exists_eq_add_of_le hge
      simpa [Nat.add_assoc] using hk j (by omega)

/-- Either none of the next `n` calls fails, or there is a first one that does. -/
theorem grants_or_failsAt (m : Mem σ) (n : ℕ) : m.Grants n ∨ ∃ j < n, m.FailsAt j := by
  induction n with
  | zero => exact .inl m.grants_zero
  | succ n ih =>
    rcases ih with hgrants | ⟨j, hj, hfails⟩
    · cases hlast : m.fails (m.calls + n) with
      | true => exact .inr ⟨n, n.lt_succ_self, hgrants, hlast⟩
      | false =>
        refine .inl fun k hk => ?_
        rcases Nat.lt_succ_iff_lt_or_eq.mp hk with hlt | rfl
        · exact hgrants k hlt
        · exact hlast
    · exact .inr ⟨j, Nat.lt_succ_of_lt hj, hfails⟩

theorem FailsAt.not_grants {m : Mem σ} {j n : ℕ} (h : m.FailsAt j) (hlt : j < n) : ¬m.Grants n :=
  fun hgrants => by simpa [h.fails] using hgrants j hlt

/-- The blocks the next `n` calls return. -/
def granted (m : Mem σ) (n : ℕ) : List ℕ := (List.range' m.calls n).filter (m.fails · = false)

theorem FailsAt.granted_eq {m : Mem σ} {j : ℕ} (h : m.FailsAt j) :
    m.granted (j + 1) = List.range' m.calls j := by
  have hbefore : ∀ b ∈ List.range' m.calls j, decide (m.fails b = false) = true := by
    intro b hb
    obtain ⟨k, hk, rfl⟩ := List.mem_range'.mp hb
    simpa using h.before k hk
  rw [granted, List.range'_concat, List.filter_append, List.filter_eq_self.mpr hbefore]
  simp [h.fails]

end Mem

/-- `malloc`. -/
def malloc : StateM (Mem σ) (Option ℕ) := fun m =>
  (if m.fails m.calls then none else some m.calls, m.after 1 [])

/-- `free`. -/
def free (b : ℕ) : StateM (Mem σ) Unit := fun m => ((), m.after 0 [b])

/-- `if (!(a = x)) { undo; return NULL; }`, and `f a` otherwise. -/
def ifNull (x : StateM (Mem σ) (Option α)) (undo : StateM (Mem σ) Unit)
    (f : α → StateM (Mem σ) (Option β)) : StateM (Mem σ) (Option β) := fun m =>
  match x m with
  | (some a, m') => f a m'
  | (none, m') => (none, (undo m').2)

/-! ## What frees blocks -/

/-- `undo` frees the blocks `bs`, each once, and does nothing else. -/
def Frees (undo : StateM (Mem σ) Unit) (bs : List ℕ) : Prop :=
  ∀ m, ∃ new : List ℕ, undo m = ((), m.after 0 new) ∧ new.Perm bs

theorem frees_nil : Frees (pure () : StateM (Mem σ) Unit) [] := fun m =>
  ⟨[], by rw [m.after_zero]; rfl, .refl _⟩

theorem frees_free (b : ℕ) : Frees (free b : StateM (Mem σ) Unit) [b] :=
  fun _ => ⟨[b], rfl, .refl _⟩

theorem Frees.seq {undo undo' : StateM (Mem σ) Unit} {bs bs' : List ℕ} (h : Frees undo bs)
    (h' : Frees undo' bs') : Frees (undo >>= fun _ => undo') (bs ++ bs') := by
  intro m
  obtain ⟨new, hundo, hperm⟩ := h m
  obtain ⟨new', hundo', hperm'⟩ := h' (m.after 0 new)
  refine ⟨new ++ new', ?_, hperm.append hperm'⟩
  change undo' (undo m).2 = _
  rw [hundo]
  exact hundo'.trans (congrArg _ (m.after_after 0 0 new new'))

theorem Frees.perm {undo : StateM (Mem σ) Unit} {bs bs' : List ℕ} (h : Frees undo bs)
    (hperm : bs.Perm bs') : Frees undo bs' := fun m => by
  obtain ⟨new, hundo, hnew⟩ := h m
  exact ⟨new, hundo, hnew.trans hperm⟩

/-! ## What allocates -/

/-- **A program that takes `n` blocks**: it returns a value, related to the memory before and after
by `Q`, when the next `n` allocations succeed; and when one of them fails it frees what it was given
before, and the blocks `held` for it, each once, and returns `NULL`. -/
structure Takes (held : List ℕ) (n : ℕ) (x : StateM (Mem σ) (Option α))
    (Q : Mem σ → α → Mem σ → Prop) : Prop where
  granted : ∀ m, m.Grants n → ∃ a m', x m = (some a, m') ∧ Q m a m'
  refused : ∀ m, ∀ j < n, m.FailsAt j → ∃ new : List ℕ, x m = (none, m.after (j + 1) new) ∧
    new.Perm (held ++ List.range' m.calls j)

/-- The value owns the blocks taken, and those held before; nothing else has changed. -/
def Gives (held : List ℕ) (n : ℕ) (owned : α → List ℕ) (m : Mem σ) (a : α) (m' : Mem σ) : Prop :=
  m' = m.after n [] ∧ (owned a).Perm (held ++ List.range' m.calls n)

theorem takes_malloc :
    Takes [] 1 (malloc : StateM (Mem σ) (Option ℕ)) (Gives [] 1 fun b => [b]) where
  granted m hm := by
    have hfails : m.fails m.calls = false := hm 0 Nat.one_pos
    exact ⟨m.calls, m.after 1 [], by simp [malloc, hfails], rfl, .refl _⟩
  refused m j hj hm := by
    obtain rfl : j = 0 := by omega
    have hfails : m.fails m.calls = true := hm.fails
    exact ⟨[], by simp [malloc, hfails], .refl _⟩

/-- What cannot fail takes nothing. -/
theorem takes_zero {held : List ℕ} {x : StateM (Mem σ) (Option α)} {Q : Mem σ → α → Mem σ → Prop}
    (h : ∀ m, ∃ a m', x m = (some a, m') ∧ Q m a m') : Takes held 0 x Q where
  granted m _ := h m
  refused _ j hj := absurd hj (Nat.not_lt_zero j)

theorem takes_pure {held : List ℕ} {a : α} {owned : α → List ℕ} (h : (owned a).Perm held) :
    Takes held 0 (pure (some a) : StateM (Mem σ) (Option α)) (Gives held 0 owned) :=
  takes_zero fun _ => ⟨a, _, rfl, (Mem.after_zero _).symm, by simpa using h⟩

/-- **The rule of `if (!(a = x)) { undo; return NULL; }`**: `undo` frees what is held before `x`,
and what comes after `x` holds the blocks of its value too. -/
theorem Takes.ifNull {held : List ℕ} {n k : ℕ} {x : StateM (Mem σ) (Option α)}
    {undo : StateM (Mem σ) Unit} {f : α → StateM (Mem σ) (Option β)} {owned : α → List ℕ}
    {Q : α → Mem σ → β → Mem σ → Prop} {Q' : Mem σ → β → Mem σ → Prop}
    (hx : Takes [] n x (Gives [] n owned)) (hundo : Frees undo held)
    (hf : ∀ a, Takes (held ++ owned a) k (f a) (Q a))
    (hQ : ∀ m a b m', (owned a).Perm (List.range' m.calls n) → Q a (m.after n []) b m' →
      Q' m b m') :
    Takes held (n + k) (Machinery.ifNull x undo f) Q' where
  granted m hm := by
    obtain ⟨hn, hk⟩ := Mem.grants_add.mp hm
    obtain ⟨a, m', hxm, rfl, howned⟩ := hx.granted m hn
    obtain ⟨b, m'', hfm, hq⟩ := (hf a).granted _ hk
    exact ⟨b, m'', by simp only [Machinery.ifNull, hxm, hfm], hQ m a b m'' howned hq⟩
  refused m j hj hm := by
    rcases Nat.lt_or_ge j n with hlt | hge
    · obtain ⟨new, hxm, hnew⟩ := hx.refused m j hlt hm
      obtain ⟨freed, hfreed, hperm⟩ := hundo (m.after (j + 1) new)
      refine ⟨new ++ freed, ?_, (List.perm_append_comm.trans (hperm.append hnew))⟩
      simp only [Machinery.ifNull, hxm, hfreed, Mem.after_after, Nat.add_zero]
    · obtain ⟨i, rfl⟩ := Nat.exists_eq_add_of_le hge
      obtain ⟨hn, hi⟩ := Mem.grants_add.mp hm.before
      obtain ⟨a, m', hxm, rfl, howned⟩ := hx.granted m hn
      have hfails : (m.after n []).FailsAt i :=
        ⟨hi, by simpa [Nat.add_assoc] using hm.fails⟩
      obtain ⟨new, hfm, hnew⟩ := (hf a).refused _ i (by omega) hfails
      refine ⟨new, ?_, hnew.trans ?_⟩
      · simp only [Machinery.ifNull, hxm, hfm, Mem.after_after, List.nil_append, Nat.add_assoc]
      · rw [List.append_assoc, Mem.after_calls]
        refine (List.Perm.refl held).append ((howned.append_right _).trans (.of_eq ?_))
        rw [List.nil_append, List.range'_append_1]

/-- The rule where the value owns what is taken. -/
theorem Takes.gives {held : List ℕ} {n k : ℕ} {x : StateM (Mem σ) (Option α)}
    {undo : StateM (Mem σ) Unit} {f : α → StateM (Mem σ) (Option β)} {owned : α → List ℕ}
    {owned' : β → List ℕ} (hx : Takes [] n x (Gives [] n owned)) (hundo : Frees undo held)
    (hf : ∀ a, Takes (held ++ owned a) k (f a) (Gives (held ++ owned a) k owned')) :
    Takes held (n + k) (Machinery.ifNull x undo f) (Gives held (n + k) owned') := by
  refine hx.ifNull hundo hf ?_
  rintro m a b m' howned ⟨rfl, hb⟩
  refine ⟨Mem.after_after m n k [] [], hb.trans ?_⟩
  rw [List.append_assoc, Mem.after_calls, ← List.range'_append_1]
  exact (List.Perm.refl held).append (howned.append_right _)

/-- What is held, in another order. -/
theorem Takes.perm {held held' : List ℕ} {n : ℕ} {x : StateM (Mem σ) (Option α)}
    {owned : α → List ℕ} (h : Takes held n x (Gives held n owned)) (hperm : held.Perm held') :
    Takes held' n x (Gives held' n owned) where
  granted m hm := by
    obtain ⟨a, m', hx, hm', howned⟩ := h.granted m hm
    exact ⟨a, m', hx, hm', howned.trans (hperm.append_right _)⟩
  refused m j hj hm := by
    obtain ⟨new, hx, hnew⟩ := h.refused m j hj hm
    exact ⟨new, hx, hnew.trans (hperm.append_right _)⟩

/-- The rule where nothing after `x` can fail. -/
theorem Takes.ifNull_last {n : ℕ} {held : List ℕ} {x : StateM (Mem σ) (Option α)}
    {undo : StateM (Mem σ) Unit} {f : α → StateM (Mem σ) (Option β)}
    {Q : Mem σ → α → Mem σ → Prop} {Q' : Mem σ → β → Mem σ → Prop} (hx : Takes [] n x Q)
    (hundo : Frees undo held)
    (hf : ∀ m a m', Q m a m' → ∃ b m'', f a m' = (some b, m'') ∧ Q' m b m'') :
    Takes held n (Machinery.ifNull x undo f) Q' where
  granted m hm := by
    obtain ⟨a, m', hxm, hq⟩ := hx.granted m hm
    obtain ⟨b, m'', hfm, hq'⟩ := hf m a m' hq
    exact ⟨b, m'', by simp only [Machinery.ifNull, hxm, hfm], hq'⟩
  refused m j hj hm := by
    obtain ⟨new, hxm, hnew⟩ := hx.refused m j hj hm
    obtain ⟨freed, hfreed, hperm⟩ := hundo (m.after (j + 1) new)
    refine ⟨new ++ freed, ?_, (List.perm_append_comm.trans (hperm.append hnew))⟩
    simp only [Machinery.ifNull, hxm, hfreed, Mem.after_after, Nat.add_zero]

/-- **It returns `NULL` exactly when one of its allocations fails.** -/
theorem Takes.null_iff {held : List ℕ} {n : ℕ} {x : StateM (Mem σ) (Option α)}
    {Q : Mem σ → α → Mem σ → Prop} (h : Takes held n x Q) (m : Mem σ) :
    (x m).1 = none ↔ ¬m.Grants n := by
  rcases m.grants_or_failsAt n with hm | ⟨j, hj, hm⟩
  · obtain ⟨a, m', hx, -⟩ := h.granted m hm
    simp [hx, hm]
  · obtain ⟨new, hx, -⟩ := h.refused m j hj hm
    simp [hx, hm.not_grants hj]

/-! ## What is left behind -/

/-- `realloc` of a block: it is freed for another one, or for none where nothing is to be in it; and
it stays where the call fails. -/
def realloc (b n : ℕ) : StateM (Mem σ) (Option ℕ) := fun m =>
  if n = 0 then (none, m.after 0 [b])
  else if m.fails m.calls then (none, m.after 1 [])
  else (some m.calls, m.after 1 [b])

/-- **Cleaned up**: from `m` to `m'` every block that was given was freed, each once, and no
other. -/
def Mem.Cleaned (m m' : Mem σ) : Prop :=
  ∃ new : List ℕ, m'.freed = m.freed ++ new ∧ new.Perm (m.granted (m'.calls - m.calls))

/-- A program that has cleaned up when it returns `NULL`. -/
def CleansUp (x : StateM (Mem σ) (Option α)) (m : Mem σ) : Prop :=
  (x m).1 = none → m.Cleaned (x m).2

theorem Mem.cleaned_after {m : Mem σ} {n : ℕ} {bs : List ℕ} :
    m.Cleaned (m.after n bs) ↔ bs.Perm (m.granted n) := by
  rw [Cleaned, after_calls, Nat.add_sub_cancel_left]
  constructor
  · rintro ⟨new, hfreed, hperm⟩
    obtain rfl := List.append_cancel_left hfreed
    exact hperm
  · exact fun hperm => ⟨bs, rfl, hperm⟩

theorem Mem.Grants.granted_eq {m : Mem σ} {n : ℕ} (h : m.Grants n) :
    m.granted n = List.range' m.calls n := by
  refine List.filter_eq_self.mpr fun b hb => ?_
  obtain ⟨k, hk, rfl⟩ := List.mem_range'.mp hb
  simpa using h k hk

theorem Mem.grants_succ {m : Mem σ} {n : ℕ} :
    m.Grants (n + 1) ↔ m.Grants n ∧ m.fails (m.calls + n) = false := by
  rw [grants_add, Grants, Grants]
  simp

theorem CleansUp.of_some {x : StateM (Mem σ) (Option α)} {m m' : Mem σ} {a : α}
    (h : x m = (some a, m')) : CleansUp x m := fun hnull => by simp [h] at hnull

/-- A program that returns `NULL`. -/
theorem cleansUp_iff_of_none {x : StateM (Mem σ) (Option α)} {m : Mem σ} {n : ℕ} {bs : List ℕ}
    (h : x m = (none, m.after n bs)) : CleansUp x m ↔ bs.Perm (m.granted n) := by
  rw [CleansUp, h, ← Mem.cleaned_after]
  exact imp_iff_right rfl

theorem free_after (m : Mem σ) (n : ℕ) (bs : List ℕ) (b : ℕ) :
    free b (m.after n bs) = ((), m.after n (bs ++ [b])) :=
  congrArg _ (m.after_after n 0 bs [b])

theorem free_bind_after (x : StateM (Mem σ) α) (m : Mem σ) (n : ℕ) (bs : List ℕ) (b : ℕ) :
    (free b >>= fun _ => x) (m.after n bs) = x (m.after n (bs ++ [b])) :=
  congrArg x (m.after_after n 0 bs [b])

theorem ifNull_none (undo : StateM (Mem σ) Unit) (f : α → StateM (Mem σ) (Option β)) (m : Mem σ) :
    ifNull (pure none) undo f m = (none, (undo m).2) := rfl

theorem ifNull_some (a : α) (undo : StateM (Mem σ) Unit) (f : α → StateM (Mem σ) (Option β))
    (m : Mem σ) : ifNull (pure (some a)) undo f m = f a m := rfl

theorem ifNull_malloc (undo : StateM (Mem σ) Unit) (f : ℕ → StateM (Mem σ) (Option α))
    (m : Mem σ) : ifNull malloc undo f m =
      if m.fails m.calls = true then (none, (undo (m.after 1 [])).2)
      else f m.calls (m.after 1 []) := by
  rcases hfails : m.fails m.calls <;> simp [ifNull, malloc, hfails]

end Machinery
