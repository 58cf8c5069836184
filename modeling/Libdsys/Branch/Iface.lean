import Mathlib.Algebra.Group.Nat.Defs

/-!
# Branch/Iface — roles

`bc_iface` gives each role its functions, and `NULL` where it has none.  `Role.c` is the column of
the constructors, by the role and the queue type they put in the channel they make; `Role.d` is that
of the destructors.

* `Role.counts` — whether a role's channels count the links that refer to them.
-/

namespace Libdsys

/-- `bc_role_t`. -/
inductive Role
  | cust | pipe | pipen | replicate | replicaten
  | reduceSum | reduceMul | reduceMax | reduceMin | reduceMinmax | reduceOpt
  | farm | farmn | collect | spread | collectAny
deriving Repr, DecidableEq

/-- `bc_qtype_t`. -/
inductive Qtype
  | cust | mc121 | nmc121 | mc12m | nmc12m | farmn
deriving Repr, DecidableEq

/-- `bc_iface[role].c`: the role and the queue type of the channel.  A farm is always one without
memory copy. -/
def Role.c : Role → Option (Role × Qtype)
  | .pipe => some (.pipe, .mc121)
  | .pipen => some (.pipen, .nmc12m)
  | .replicate => some (.replicate, .mc12m)
  | .replicaten => some (.replicaten, .nmc12m)
  | .farm => some (.farmn, .farmn)
  | .farmn => some (.farmn, .farmn)
  | .spread => some (.spread, .mc12m)
  | _ => none

/-- `bc_channel_t`, as far as its destruction goes. -/
structure Channel where
  role : Role
  rc : ℕ
deriving Repr, DecidableEq

/-- What a destructor does: the channel after it, and by which type the queue was destroyed where
the channel was released. -/
abbrev Destructor := Channel → Channel × Option Qtype

/-- A destructor that releases at once. -/
def release (qtype : Qtype) : Destructor := fun c => (c, some qtype)

/-- A destructor that counts: `c->rc--`, of an `unsigned int`. -/
def countDown (qtype : Qtype) : Destructor := fun c =>
  let rc := (c.rc + (2 ^ 32 - 1)) % 2 ^ 32
  ({ c with rc }, if rc = 0 then some qtype else none)

/-- `__bc_d_pipe`. -/
def dPipe : Destructor := release .mc121

/-- `__bc_d_pipen`. -/
def dPipen : Destructor := release .nmc12m

/-- `__bc_d_replicate`. -/
def dReplicate : Destructor := countDown .mc12m

/-- `__bc_d_replicaten`. -/
def dReplicaten : Destructor := countDown .nmc12m

/-- `__bc_d_farmn`. -/
def dFarmn : Destructor := countDown .farmn

/-- `__bc_d_spread`. -/
def dSpread : Destructor := countDown .mc12m

/-- `bc_iface[role].d`. -/
def Role.d : Role → Option Destructor
  | .pipe => some dPipe
  | .pipen => some dPipen
  | .replicate => some dReplicate
  | .replicaten => some dReplicaten
  | .farm => some dFarmn
  | .farmn => some dFarmn
  | .spread => some dSpread
  | _ => none

/-- The functions in the column `d` of `bc_iface`: two of them may do the same. -/
inductive DestroyFn
  | pipe | pipen | replicate | replicaten | farmn | spread
deriving Repr, DecidableEq

/-- What a function of that column does. -/
def DestroyFn.destructor : DestroyFn → Destructor
  | .pipe => dPipe
  | .pipen => dPipen
  | .replicate => dReplicate
  | .replicaten => dReplicaten
  | .farmn => dFarmn
  | .spread => dSpread

/-- The entry of `bc_iface[role].d`. -/
def Role.destroyFn : Role → Option DestroyFn
  | .pipe => some .pipe
  | .pipen => some .pipen
  | .replicate => some .replicate
  | .replicaten => some .replicaten
  | .farm => some .farmn
  | .farmn => some .farmn
  | .spread => some .spread
  | _ => none

theorem Role.d_eq_map (role : Role) : role.d = role.destroyFn.map DestroyFn.destructor := by
  rcases role <;> rfl

/-- **Whether the channels of a role count their links.**  The reference count of the others is
never set. -/
def Role.counts : Role → Bool
  | .pipe => false
  | .pipen => false
  | _ => true

/-- The type of the queues of a role's channels. -/
def Role.qtype? (role : Role) : Option Qtype := role.c.map Prod.snd

variable {role : Role} {d : Destructor} {c : Channel}

/-- **What a destructor does to a channel**: one kind releases it, the other counts, and the queue
is destroyed by the type of the role's own channels. -/
theorem Role.d_eq (h : role.d = some d) : ∃ qtype, role.qtype? = some qtype ∧
    d = if role.counts then countDown qtype else release qtype := by
  cases role <;> simp only [Role.d, reduceCtorEq, Option.some.injEq] at h <;> subst h <;>
    exact ⟨_, rfl, rfl⟩

/-- The roles that make a channel can destroy it. -/
theorem Role.exists_d {role' : Role} {qtype : Qtype} (h : role.c = some (role', qtype)) :
    ∃ d, role'.d = some d := by
  cases role <;> simp only [Role.c, reduceCtorEq, Option.some.injEq, Prod.mk.injEq] at h <;>
    obtain ⟨rfl, -⟩ := h <;> exact ⟨_, rfl⟩

theorem Role.exists_destroyFn {role' : Role} {qtype : Qtype} (h : role.c = some (role', qtype)) :
    ∃ fn, role'.destroyFn = some fn := by
  obtain ⟨d, hd⟩ := Role.exists_d h
  rw [Role.d_eq_map] at hd
  exact ⟨_, (Option.map_eq_some_iff.mp hd).choose_spec.1⟩

theorem Role.counts_of_c {role' : Role} {qtype : Qtype} (h : role.c = some (role', qtype)) :
    role'.counts = role.counts := by
  cases role <;> simp only [Role.c, reduceCtorEq, Option.some.injEq, Prod.mk.injEq] at h <;>
    obtain ⟨rfl, -⟩ := h <;> rfl

@[simp] theorem release_eq (qtype : Qtype) (c : Channel) : release qtype c = (c, some qtype) := rfl

/-- Counting down releases a channel whose count is one, and no other. -/
theorem countDown_eq (qtype : Qtype) (h : c.rc < 2 ^ 32) :
    countDown qtype c = ({ c with rc := if c.rc = 0 then 2 ^ 32 - 1 else c.rc - 1 },
      if c.rc = 1 then some qtype else none) := by
  have hdown : (c.rc + (2 ^ 32 - 1)) % 2 ^ 32 = if c.rc = 0 then 2 ^ 32 - 1 else c.rc - 1 := by
    split <;> omega
  have hone : (if c.rc = 0 then 2 ^ 32 - 1 else c.rc - 1) = 0 ↔ c.rc = 1 := by
    split <;> omega
  simp only [countDown, hdown, hone]

end Libdsys
