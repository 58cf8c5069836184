import Libdsys.Branch.Calls

/-!
# Branch/Plain — calls that poll nobody

Only `BC_ROLE_COLLECT_ANY` looks whether a producer has something.  All other calls ask for what
they want and wait for it, in an order that is their own.

* `reads_r` — every other receive function asks and reads.
* `plain_bcCall` — unless it is a get from such a source, a call polls nobody.
-/

namespace Libdsys

variable {P α β : Type}

/-- **A call that polls nobody**, and whose requests are for `links`. -/
def Micro.Plain (links : List (P × ℕ)) : Micro P α → Prop
  | .done _ => True
  | .fault => True
  | .put _ _ _ next => next.Plain links
  | .commit _ _ next => next.Plain links
  | .retry _ _ next => next.Plain links
  | .fill _ _ _ next => next.Plain links
  | .request p r next => r.condRecv = false ∧ (p, r.tag) ∈ links ∧ next.Plain links
  | .read _ _ next => ∀ bs, (next bs).Plain links
  | .poll _ _ _ _ _ => False

section Rules

variable {links rest : List (P × ℕ)} {m : Micro P α} {f : α → Micro P β}

/-- **The rule of sequencing.** -/
theorem plain_bind (hm : m.Plain links) (hf : ∀ a, (f a).Plain links) :
    (m.bind f).Plain links := by
  induction m with
  | done a => exact hf a
  | fault => trivial
  | put c i bs next ih => exact ih hm
  | commit c count next ih => exact ih hm
  | retry c i next ih => exact ih hm
  | fill c off bs next ih => exact ih hm
  | request p r next ih => exact ⟨hm.1, hm.2.1, ih hm.2.2⟩
  | read p n next ih => exact fun bs => ih bs (hm bs)
  | poll links' rest' sz du next ih => exact hm.elim

theorem Micro.Plain.mono (hm : m.Plain rest) (h : ∀ x ∈ rest, x ∈ links) : m.Plain links := by
  induction m with
  | done a => trivial
  | fault => trivial
  | put c i bs next ih => exact ih hm
  | commit c count next ih => exact ih hm
  | retry c i next ih => exact ih hm
  | fill c off bs next ih => exact ih hm
  | request p r next ih => exact ⟨hm.1, h _ hm.2.1, ih hm.2.2⟩
  | read p n next ih => exact fun bs => ih bs (hm bs)
  | poll links' rest' sz du next ih => exact hm.elim

theorem plain_ofOption (o : Option α) : (Micro.ofOption o).Plain links := by
  cases o <;> trivial

end Rules

/-! ## Calls that ask and read -/

/-- **A call that asks and reads**, and does nothing else: what most receive functions are. -/
def Micro.Reads (links : List (P × ℕ)) : Micro P α → Prop
  | .done _ => True
  | .fault => True
  | .request p r next => r.condRecv = false ∧ (p, r.tag) ∈ links ∧ next.Reads links
  | .read _ _ next => ∀ bs, (next bs).Reads links
  | _ => False

section ReadsRules

variable {links rest : List (P × ℕ)} {m : Micro P α} {f : α → Micro P β}

/-- **The rule of sequencing.** -/
theorem reads_bind (hm : m.Reads links) (hf : ∀ a, (f a).Reads links) :
    (m.bind f).Reads links := by
  induction m with
  | done a => exact hf a
  | fault => trivial
  | put | commit | retry | fill | poll => exact hm.elim
  | request p r next ih => exact ⟨hm.1, hm.2.1, ih hm.2.2⟩
  | read p n next ih => exact fun bs => ih bs (hm bs)

theorem Micro.Reads.plain (hm : m.Reads links) : m.Plain links := by
  induction m with
  | done | fault => trivial
  | put | commit | retry | fill | poll => exact hm.elim
  | request p r next ih => exact ⟨hm.1, hm.2.1, ih hm.2.2⟩
  | read p n next ih => exact fun bs => ih bs (hm bs)

theorem reads_ofOption (o : Option α) : (Micro.ofOption o).Reads links := by
  cases o <;> trivial

theorem reads_readData (p : P) (n : ℕ) : (readData p n).Reads links := fun _ => trivial

theorem reads_requestAll (du : ℕ) (h : ∀ x ∈ rest, x ∈ links) :
    (requestAll du rest).Reads links := by
  induction rest with
  | nil => trivial
  | cons x rest ih =>
    exact ⟨rfl, h x List.mem_cons_self, ih fun y hy => h y (List.mem_cons_of_mem _ hy)⟩

theorem reads_readEach (sz : ℕ) (rest : List (P × ℕ)) (off : ℕ) (loc : List Byte) :
    (readEach sz rest off loc).Reads links := by
  induction rest generalizing off loc with
  | nil => trivial
  | cons x rest ih =>
    exact reads_bind (reads_readData _ _) fun _ => reads_bind (reads_ofOption _) fun _ => ih _ _

theorem reads_reduceEach (sz : ℕ) (combine : List Byte → List Byte → Option (List Byte))
    (rest : List (P × ℕ)) (loc : List Byte) : (reduceEach sz combine rest loc).Reads links := by
  induction rest generalizing loc with
  | nil => trivial
  | cons x rest ih =>
    exact reads_bind (reads_readData _ _) fun _ => reads_bind (reads_ofOption _) fun _ => ih _

end ReadsRules

/-! ## The receive functions -/

variable {A : Arith} {src : Src P} {loc : List Byte} {du : ℕ}

/-- A call that asks every producer first. -/
theorem reads_requestAll_bind {rest : Micro P α} (h : rest.Reads src.links) :
    (requestAll du src.links >>= fun _ => rest).Reads src.links :=
  reads_bind (reads_requestAll du fun _ hx => hx) fun _ => h

theorem reads_rPipe : (rPipe src loc du).Reads src.links := by
  cases hlinks : src.links with
  | nil => simp only [rPipe, hlinks, List.head?_nil]; trivial
  | cons x links =>
    simp only [rPipe, hlinks, List.head?_cons]
    refine ⟨rfl, List.mem_cons_self, fun bs => ?_⟩
    change ((store loc 0 bs).bind fun loc => .done (0, loc)).Reads _
    exact reads_bind (reads_ofOption _) fun _ => trivial

theorem reads_rCollect : (rCollect src loc du).Reads src.links :=
  reads_requestAll_bind (reads_bind (reads_readEach _ _ _ _) fun _ => trivial)

theorem reads_rFoldReduce {value : ℕ} {mode : VariableMode} :
    (rFoldReduce A value mode src loc du).Reads src.links :=
  reads_requestAll_bind (reads_bind (reads_ofOption _) fun _ =>
    reads_bind (reads_reduceEach _ _ _ _) fun _ => trivial)

theorem reads_rSelectReduce {mode : VariableMode} :
    (rSelectReduce A mode src loc du).Reads src.links :=
  reads_requestAll_bind (reads_bind (reads_ofOption _) fun _ =>
    reads_bind (reads_readData _ _) fun _ => reads_bind (reads_ofOption _) fun _ =>
      reads_bind (reads_reduceEach _ _ _ _) fun _ => trivial)

theorem reads_rMinmaxReduce : (rMinmaxReduce A src loc du).Reads src.links :=
  reads_requestAll_bind (reads_bind (reads_ofOption _) fun _ =>
    reads_bind (reads_readData _ _) fun _ => reads_bind (reads_ofOption _) fun _ =>
      reads_bind (reads_ofOption _) fun _ => reads_bind (reads_reduceEach _ _ _ _) fun _ => trivial)

theorem reads_rOptReduce : (rOptReduce A src loc du).Reads src.links :=
  reads_requestAll_bind (reads_bind (reads_readEach _ _ _ _) fun _ =>
    reads_bind (reads_ofOption _) fun _ => reads_bind (reads_ofOption _) fun _ => trivial)

/-- **Every receive function but one asks and reads, and does nothing else.** -/
theorem reads_r {role : Role} {r} (hr : role.r A = some r) (hany : role ≠ .collectAny) :
    (r src loc du).Reads src.links := by
  cases role <;> simp only [Role.r, reduceCtorEq, Option.some.injEq] at hr <;> subst hr
  case pipe | pipen => exact reads_rPipe
  case reduceSum | reduceMul => exact reads_rFoldReduce
  case reduceMax | reduceMin => exact reads_rSelectReduce
  case reduceMinmax => exact reads_rMinmaxReduce
  case reduceOpt => exact reads_rOptReduce
  case collect => exact reads_rCollect
  case collectAny => exact absurd rfl hany

variable [DecidableEq P]

/-- A put asks nobody. -/
theorem plain_p {role : Role} {ch : SinkChan P} {c : ℕ} {links : List (P × ℕ)} :
    (role.p ch c loc du).Plain links := by
  have hreplicate (rest : List P) (s : ℕ) :
      (replicateEach ch.plist c loc s rest).Plain links := by
    induction rest with
    | nil => trivial
    | cons tag rest ih => exact plain_bind (plain_ofOption _) fun _ => ih
  have hspread (rest : List P) (s i off : ℕ) :
      (spreadEach c loc s rest i off).Plain links := by
    induction rest generalizing i off with
    | nil => trivial
    | cons _ rest ih => exact plain_bind (plain_ofOption _) fun _ => ih _ _
  cases role <;> first
    | exact plain_bind (plain_ofOption _) fun _ => trivial
    | exact hreplicate _ _
    | exact hspread _ _ _ _
    | trivial

/-- **A call polls nobody**, unless a source does. -/
theorem plain_bcCall (A : Arith) {chans : Chans P} (call : Call)
    (hany : ∀ src ∈ chans.srcs, src.role ≠ .collectAny) :
    (bcCall A chans call).Plain (chans.srcs.flatMap Src.links) := by
  have hcall := callIs_bcCall A chans call
  generalize bcCall A chans call = micro at hcall ⊢
  cases hcall with
  | refused | null | fill => trivial
  | put hch => exact plain_bind plain_p fun _ => trivial
  | @get j src loc du r hsrc hdu hr =>
    have hmem := List.mem_of_getElem? hsrc
    exact (reads_r hr (hany src hmem)).plain.mono fun x hx => List.mem_flatMap.mpr ⟨src, hmem, hx⟩

end Libdsys
