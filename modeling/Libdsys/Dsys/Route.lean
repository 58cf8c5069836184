import Libdsys.Branch.Plain
import Libdsys.Dsys.MeshConsistent

/-!
# Dsys/Route — the sockets a get uses

A get sends its requests to `__bc_rank2fd_req`, and reads from `__bc_rank2fd_data`, of the ranks in
its producer list.  There is an entry in `slist` for every rank but the own one, which comes out at
the entry of the next rank; `bc_src_create` does not look.

* `uses_r` — a get uses the sockets of its producers, and no others.
* `routes_iff` — they lead to the producers exactly if the process itself is none of them.
* `own_rank` — what the lists of all processes and of the process itself lead to.
-/

open Machinery

namespace Libdsys

/-! ## Whose sockets a call uses -/

section Uses

variable {P α β : Type} {Q : P → Prop}

/-- **A call that uses the sockets of** processes that satisfy `Q`, and no others. -/
def Micro.Uses (Q : P → Prop) : Micro P α → Prop
  | .done _ => True
  | .fault => True
  | .put _ _ _ next => next.Uses Q
  | .commit _ _ next => next.Uses Q
  | .retry _ _ next => next.Uses Q
  | .fill _ _ _ next => next.Uses Q
  | .request p _ next => Q p ∧ next.Uses Q
  | .read p _ next => Q p ∧ ∀ bs, (next bs).Uses Q
  | .poll links rest _ _ next =>
    (∀ x ∈ links, Q x.1) ∧ (∀ x ∈ rest, Q x.1) ∧ ∀ bs, (next bs).Uses Q

variable {m : Micro P α} {f : α → Micro P β} {links : List (P × ℕ)}

/-- **The rule of sequencing.** -/
theorem uses_bind (hm : m.Uses Q) (hf : ∀ a, (f a).Uses Q) : (m.bind f).Uses Q := by
  induction m with
  | done a => exact hf a
  | fault => trivial
  | put c i bs next ih => exact ih hm
  | commit c count next ih => exact ih hm
  | retry c i next ih => exact ih hm
  | fill c off bs next ih => exact ih hm
  | request p r next ih => exact ⟨hm.1, ih hm.2⟩
  | read p n next ih => exact ⟨hm.1, fun bs => ih bs (hm.2 bs)⟩
  | poll links rest sz du next ih => exact ⟨hm.1, hm.2.1, fun bs => ih bs (hm.2.2 bs)⟩

theorem uses_ofOption (o : Option α) : (Micro.ofOption o : Micro P α).Uses Q := by
  rcases o with _ | a <;> trivial

theorem uses_readData {p : P} (h : Q p) (n : ℕ) : (readData p n).Uses Q := ⟨h, fun _ => trivial⟩

theorem uses_requestAll (du : ℕ) (h : ∀ x ∈ links, Q x.1) : (requestAll du links).Uses Q := by
  induction links with
  | nil => trivial
  | cons x links ih =>
    rw [List.forall_mem_cons] at h
    exact ⟨h.1, ih h.2⟩

theorem uses_readEach (sz : ℕ) (off : ℕ) (loc : List Byte) (h : ∀ x ∈ links, Q x.1) :
    (readEach sz links off loc).Uses Q := by
  induction links generalizing off loc with
  | nil => trivial
  | cons x links ih =>
    rw [List.forall_mem_cons] at h
    exact uses_bind (uses_readData h.1 _) fun _ =>
      uses_bind (uses_ofOption _) fun _ => ih _ _ h.2

theorem uses_reduceEach (sz : ℕ) (combine : List Byte → List Byte → Option (List Byte))
    (loc : List Byte) (h : ∀ x ∈ links, Q x.1) : (reduceEach sz combine links loc).Uses Q := by
  induction links generalizing loc with
  | nil => trivial
  | cons x links ih =>
    rw [List.forall_mem_cons] at h
    exact uses_bind (uses_readData h.1 _) fun _ =>
      uses_bind (uses_ofOption _) fun _ => ih _ h.2

variable {A : Arith} {src : Src P} {loc : List Byte} {du : ℕ}

/-- What is read from the first producer. -/
theorem uses_head {f : P × ℕ → Micro P β} (hf : ∀ x ∈ src.links, (f x).Uses Q) :
    ((Micro.ofOption src.links.head?).bind f).Uses Q := by
  rcases hlinks : src.links with _ | ⟨x, links⟩
  · trivial
  · exact hf x (hlinks ▸ List.mem_cons_self)

/-- **A get uses the sockets of its producers.** -/
theorem uses_r {role : Role} {r} (hr : role.r A = some r) (h : ∀ x ∈ src.links, Q x.1) :
    (r src loc du).Uses Q := by
  have htail : ∀ x ∈ src.links.tail, Q x.1 := fun x hx => h x (List.mem_of_mem_tail hx)
  have hrequest {β : Type} {rest : Micro P β} (hrest : rest.Uses Q) :
      (requestAll du src.links >>= fun _ => rest).Uses Q :=
    uses_bind (uses_requestAll du h) fun _ => hrest
  rcases role <;> simp only [Role.r, reduceCtorEq, Option.some.injEq] at hr <;> subst hr
  case pipe | pipen =>
    exact uses_head fun x hx => uses_bind ⟨h x hx, trivial⟩ fun _ =>
      uses_bind (uses_readData (h x hx) _) fun _ => uses_bind (uses_ofOption _) fun _ => trivial
  case reduceSum | reduceMul =>
    exact hrequest (uses_bind (uses_ofOption _) fun _ =>
      uses_bind (uses_reduceEach _ _ _ h) fun _ => trivial)
  case reduceMax | reduceMin =>
    exact hrequest (uses_head fun x hx => uses_bind (uses_readData (h x hx) _) fun _ =>
      uses_bind (uses_ofOption _) fun _ =>
        uses_bind (uses_reduceEach _ _ _ htail) fun _ => trivial)
  case reduceMinmax =>
    exact hrequest (uses_head fun x hx => uses_bind (uses_readData (h x hx) _) fun _ =>
      uses_bind (uses_ofOption _) fun _ => uses_bind (uses_ofOption _) fun _ =>
        uses_bind (uses_reduceEach _ _ _ htail) fun _ => trivial)
  case reduceOpt =>
    exact hrequest (uses_bind (uses_readEach _ _ _ h) fun _ =>
      uses_bind (uses_ofOption _) fun _ => uses_bind (uses_ofOption _) fun _ => trivial)
  case collect => exact hrequest (uses_bind (uses_readEach _ _ _ h) fun _ => trivial)
  case collectAny => exact ⟨h, h, fun _ => uses_bind (uses_ofOption _) fun _ => trivial⟩

end Uses

/-! ## Where they lead -/

/-- `bc_plist_all`. -/
def plistAll (size : ℕ) : List ℕ := List.range size

/-- `bc_plist_self`. -/
def plistSelf (rank : ℕ) : List ℕ := [rank]

namespace Mesh

/-- `__bc_rank2fd_req` or `__bc_rank2fd_data` of rank `x` at process `p` — `none` outside
`slist`. -/
def rank2fd (size : ℕ) (s : Mesh) (p x : ℕ) (t : SockType) : Option Fd :=
  if rank2idx p x < size - 1 then (s.slist p (rank2idx p x) t).head? else none

/-- Process `q` holds the other end of `fd`. -/
def FarEnd (size : ℕ) (s : Mesh) (fd : Fd) (q : ℕ) : Prop :=
  q < size ∧ ∃ idx < size - 1, ∃ t, fd.peer ∈ s.slist q idx t

/-- **A rank is routed** to the process that was named, and to no other. -/
def Routed (size : ℕ) (s : Mesh) (p x : ℕ) : Prop :=
  ∀ t, ∃ fd, rank2fd size s p x t = some fd ∧ ∀ q, FarEnd size s fd q ↔ q = x

variable {size : ℕ} {s : Mesh} {p x : ℕ}

/-- An end tells whose it is. -/
theorem link_left {q r : ℕ} {t t' : SockType} (h : link p q t = link x r t') : p = x := by
  unfold link at h
  split_ifs at h <;> cases h <;> rfl

theorem Consistent.farEnd_link (hs : s.Consistent size) {q : ℕ} (hp : p < size) (hq : q < size)
    (hpq : p ≠ q) (t : SockType) (x : ℕ) : FarEnd size s (link p q t) x ↔ x = q := by
  rw [FarEnd, link_peer hpq]
  constructor
  · rintro ⟨hx, idx, hidx, t', hmem⟩
    obtain ⟨hlt, hne, heq⟩ := hs.covers x hx idx hidx
    have hslist := (hs.paired x hx _ hlt hne.symm t').1
    rw [heq] at hslist
    rw [hslist, List.mem_singleton] at hmem
    exact (link_left hmem).symm
  · rintro rfl
    refine ⟨hq, rank2idx x p, (hs.serves x hq p hp hpq.symm).1, t, ?_⟩
    rw [(hs.paired x hq p hp hpq.symm t).1]
    exact List.mem_singleton_self _

theorem Consistent.rank2fd_of_ne (hs : s.Consistent size) (hp : p < size) (hx : x < size)
    (hne : x ≠ p) (t : SockType) : rank2fd size s p x t = some (link p x t) := by
  rw [rank2fd, if_pos (hs.serves p hp x hx hne.symm).1, (hs.paired p hp x hx hne.symm t).1]
  rfl

/-- **The own rank** comes out at the entry of the next one, or behind the last. -/
theorem Consistent.rank2fd_self (hs : s.Consistent size) (hp : p < size) (t : SockType) :
    rank2fd size s p p t = if p + 1 < size then some (link p (p + 1) t) else none := by
  have hself : rank2idx p p = p := if_neg (lt_irrefl p)
  have hnext : rank2idx p (p + 1) = p := if_pos p.lt_succ_self
  by_cases hlast : p + 1 < size
  · have hslist := (hs.paired p hp (p + 1) hlast (Nat.ne_of_lt p.lt_succ_self) t).1
    rw [hnext] at hslist
    rw [rank2fd, hself, if_pos (by omega), if_pos hlast, hslist]
    rfl
  · rw [rank2fd, hself, if_neg (by omega), if_neg hlast]

/-- **Every rank is routed but the own one.** -/
theorem Consistent.routed_iff (hs : s.Consistent size) (hp : p < size) (hx : x < size) :
    Routed size s p x ↔ x ≠ p := by
  constructor
  · rintro hrouted rfl
    obtain ⟨fd, hfd, hfar⟩ := hrouted .data
    rw [hs.rank2fd_self hp, Option.ite_none_right_eq_some, Option.some.injEq] at hfd
    obtain ⟨hlast, rfl⟩ := hfd
    have hnext := (hs.farEnd_link hp hlast (Nat.ne_of_lt x.lt_succ_self) .data (x + 1)).mpr rfl
    exact absurd ((hfar _).mp hnext) (Nat.succ_ne_self x)
  · intro hne t
    exact ⟨_, hs.rank2fd_of_ne hp hx hne t, hs.farEnd_link hp hx hne.symm t⟩

end Mesh

/-- **Requests are routed to the rank that was named** exactly if the calling process is not in the
producer list, and then its gets use no other sockets. -/
theorem routes_iff {size : ℕ} {s : Mesh} (hs : s.Consistent size) {p : ℕ} (hp : p < size)
    (src : Src ℕ) (hsrc : ∀ x ∈ src.links, x.1 < size) :
    ((∀ x ∈ src.links, s.Routed size p x.1) ∧ ∀ A r, src.role.r A = some r → ∀ loc du,
      (r src loc du).Uses (s.Routed size p)) ↔ ∀ x ∈ src.links, x.1 ≠ p := by
  have hrouted : (∀ x ∈ src.links, s.Routed size p x.1) ↔ ∀ x ∈ src.links, x.1 ≠ p :=
    forall₂_congr fun x hx => hs.routed_iff hp (hsrc x hx)
  rw [← hrouted]
  exact ⟨And.left, fun h => ⟨h, fun _ _ hr _ _ => uses_r hr h⟩⟩

namespace Mesh

/-- A network of three that has come up. -/
theorem exists_three : ∃ s, Reaches (step 3 fun p => p) start s ∧ s.Consistent 3 := by
  obtain ⟨s, hs, hdone⟩ := exists_done (fun p => p) (show 6666 + 2 * 3 ≤ 2 ^ 16 by decide) ⟨[], rfl⟩
  exact ⟨s, hs, (sound_of_reaches (by decide) hs).consistent hdone⟩

end Mesh

open Mesh in
/-- Process 0 of three collects from the two others. -/
theorem routes_iff_others : ∃ s, Reaches (step 3 fun p => p) start s ∧
    ∀ x ∈ [(1, 0), (2, 0)], s.Routed 3 0 x.1 := by
  obtain ⟨s, hs, hfull⟩ := exists_three
  have hroutes := routes_iff hfull (show 0 < 3 by decide)
    ⟨.collect, [(1, 0), (2, 0)], .int⟩ (by decide)
  exact ⟨s, hs, (hroutes.mpr (by decide)).1⟩

open Mesh in
/-- **The lists of all processes and of the process itself**: at the first of three processes the
own rank leads to the second, and at the last out of `slist`. -/
theorem own_rank : ∃ s, Reaches (step 3 fun p => p) start s ∧ 0 ∈ plistAll 3 ∧ 2 ∈ plistSelf 2 ∧
    (∃ fd, rank2fd 3 s 0 0 .data = some fd ∧ s.FarEnd 3 fd 1) ∧ ¬s.Routed 3 0 0 ∧
    rank2fd 3 s 2 2 .data = none := by
  obtain ⟨s, hs, hfull⟩ := exists_three
  refine ⟨s, hs, by decide, by decide, ⟨link 0 1 .data, ?_, ?_⟩, ?_, ?_⟩
  · exact hfull.rank2fd_self (by decide) .data
  · exact (hfull.farEnd_link (by decide) (by decide) (by decide) .data 1).mpr rfl
  · exact fun h => (hfull.routed_iff (by decide) (by decide)).mp h rfl
  · exact hfull.rank2fd_self (by decide) .data

end Libdsys
