import Libdsys.Branch.Calls

/-!
# Branch/Paired — a get reads the replies to its requests

What a call will read is due from its producers: a request adds the reply to it, and a read takes
what is due first.  `Micro.Paired` is the weakest precondition of that, in the replies that are due.

* `paired_bind` — the rule of sequencing.
* `exists_paired_bcCall` — every call reads what is due, all of it and nothing else.
-/

open Machinery

namespace Libdsys

variable {P α β : Type}

/-- A reply that is due: whether it starts with a flag, and how many bytes its data has. -/
structure Due where
  condRecv : Bool
  sz : ℕ
deriving DecidableEq

/-- The reply to a request for units of `bytes` bytes. -/
def GetRequest.due (bytes : ℕ) (r : GetRequest) : Due := ⟨r.condRecv, sizeMul bytes r.dunits⟩

/-- **A request of a source**: for at least one unit, and not for more than a buffer can hold. -/
structure Src.Asks (src : Src P) (p : P) (r : GetRequest) : Prop where
  link : (p, r.tag) ∈ src.links
  pos : 1 ≤ r.dunits
  fits : src.dtype.bytes * r.dunits < 2 ^ 64

theorem Src.Asks.sizeMul_eq {src : Src P} {p : P} {r : GetRequest} (h : src.Asks p r) :
    sizeMul src.dtype.bytes r.dunits = src.dtype.bytes * r.dunits := Nat.mod_eq_of_lt h.fits

theorem Src.Asks.sizeMul_pos {src : Src P} {p : P} {r : GetRequest} (h : src.Asks p r) :
    0 < sizeMul src.dtype.bytes r.dunits :=
  h.sizeMul_eq ▸ Nat.mul_pos src.dtype.bytes_pos h.pos

/-- What a read takes: the whole of a reply without a flag, and else the flag, behind which the
data is due or nothing. -/
def Due.Read (d : Due) (n : ℕ) (next : List Byte → List Due → Prop) : Prop :=
  match d with
  | ⟨false, sz⟩ => n = sz ∧ ∀ bs : List Byte, bs.length = n → next bs []
  | ⟨true, sz⟩ => n = 4 ∧ next (intBytes 0) [] ∧ next (intBytes 1) [⟨false, sz⟩]

theorem Due.Read.mono {d : Due} {n : ℕ} {next next' : List Byte → List Due → Prop}
    (h : d.Read n next) (himp : ∀ bs ds, next bs ds → next' bs ds) : d.Read n next' := by
  obtain ⟨_ | _, sz⟩ := d
  · exact ⟨h.1, fun bs hbs => himp bs _ (h.2 bs hbs)⟩
  · exact ⟨h.1, himp _ _ h.2.1, himp _ _ h.2.2⟩

variable [DecidableEq P]

/-- **A call reads what is due and nothing else**: from `due` on it ends, if it does, with `post`
of its result and what is due then. -/
def Micro.Paired (src : Src P) (post : α → (P → List Due) → Prop) :
    Micro P α → (P → List Due) → Prop
  | .done a, due => post a due
  | .fault, _ => True
  | .put _ _ _ next, due => next.Paired src post due
  | .commit _ _ next, due => next.Paired src post due
  | .retry _ _ next, due => next.Paired src post due
  | .fill _ _ _ next, due => next.Paired src post due
  | .request p r next, due => src.Asks p r ∧
      next.Paired src post (Function.update due p (due p ++ [r.due src.dtype.bytes]))
  | .read p n next, due => ∃ d ds, due p = d :: ds ∧
      d.Read n fun bs front => (next bs).Paired src post (Function.update due p (front ++ ds))
  | .poll links rest sz du next, due => (∀ p, due p = []) ∧
      (∀ x ∈ links, src.Asks x.1 ⟨true, x.2, du⟩) ∧ (∀ x ∈ rest, x ∈ links) ∧
      sz = sizeMul src.dtype.bytes du ∧
      ∀ bs : List Byte, bs.length = sz → (next bs).Paired src post due

/-- **The rule of sequencing.** -/
theorem paired_bind {src : Src P} {post : β → (P → List Due) → Prop} {m : Micro P α}
    {f : α → Micro P β} {due : P → List Due}
    (h : m.Paired src (fun a => (f a).Paired src post) due) :
    (m.bind f).Paired src post due := by
  induction m generalizing due with
  | done a => exact h
  | fault => trivial
  | put c i bs next ih => exact ih h
  | commit c count next ih => exact ih h
  | retry c i next ih => exact ih h
  | fill c off bs next ih => exact ih h
  | request p r next ih => exact ⟨h.1, ih h.2⟩
  | read p n next ih =>
    obtain ⟨d, ds, hdue, hread⟩ := h
    exact ⟨d, ds, hdue, hread.mono fun bs front => ih bs⟩
  | poll links rest sz du next ih =>
    obtain ⟨hdue, hlinks, hrest, hsz, hnext⟩ := h
    exact ⟨hdue, hlinks, hrest, hsz, fun bs hbs => ih bs (hnext bs hbs)⟩

/-- A poll of the next producer. -/
theorem paired_poll {src : Src P} {post : α → (P → List Due) → Prop} {links rest : List (P × ℕ)}
    {p : P} {tag sz du : ℕ} {next : List Byte → Micro P α} {due : P → List Due}
    (h : (Micro.poll links ((p, tag) :: rest) sz du next).Paired src post due) :
    (Micro.request p ⟨true, tag, du⟩ (.read p 4 fun flag =>
      if flag = intBytes 0 then .poll links rest sz du next
      else .read p sz next)).Paired src post due := by
  obtain ⟨hdue, hlinks, hrest, rfl, hnext⟩ := h
  obtain rfl : due = fun _ => [] := funext hdue
  have hnone : Function.update (fun _ : P => ([] : List Due)) p [] = fun _ => [] :=
    Function.update_eq_self p _
  have hflag : intBytes 1 ≠ intBytes 0 := by decide
  have hrefused : (Micro.poll links rest _ du next).Paired src post fun _ => [] :=
    ⟨hdue, hlinks, fun x hx => hrest x (List.mem_cons_of_mem _ hx), rfl, hnext⟩
  have hgranted : (Micro.read p (sizeMul src.dtype.bytes du) next).Paired src post
      (Function.update (fun _ => []) p [⟨false, sizeMul src.dtype.bytes du⟩]) := by
    refine ⟨_, [], Function.update_self .., rfl, fun bs hbs => ?_⟩
    simpa only [Function.update_idem, List.append_nil, hnone] using hnext bs hbs
  refine ⟨hlinks _ (hrest _ List.mem_cons_self), _, [], Function.update_self .., rfl, ?_, ?_⟩
  · simpa only [if_true, Function.update_idem, List.append_nil, hnone] using hrefused
  · simpa only [if_neg hflag, Function.update_idem, List.append_nil] using hgranted

section Rules

variable {src : Src P} {due : P → List Due}

theorem paired_ofOption {post : α → (P → List Due) → Prop} {o : Option α}
    (h : ∀ a, o = some a → post a due) : (Micro.ofOption o).Paired src post due := by
  cases o with
  | none => trivial
  | some a => exact h a rfl

theorem paired_store {post : List Byte → (P → List Due) → Prop} {loc bs : List Byte} {off : ℕ}
    (h : ∀ loc, post loc due) : (store loc off bs).Paired src post due :=
  paired_ofOption fun loc _ => h loc

theorem paired_readData {post : List Byte → (P → List Due) → Prop} {p : P} {sz : ℕ} {ds : List Due}
    (hdue : due p = ⟨false, sz⟩ :: ds)
    (h : ∀ bs, post bs (Function.update due p ds)) : (readData p sz).Paired src post due :=
  ⟨_, ds, hdue, rfl, fun bs _ => h bs⟩

end Rules

/-! ## The loops -/

/-- The replies of `sz` bytes that are due from the producers of `links`. -/
def dueOf (sz : ℕ) (links : List (P × ℕ)) (p : P) : List Due :=
  (links.filter (·.1 = p)).map fun _ => ⟨false, sz⟩

theorem dueOf_cons (sz : ℕ) (p : P) (tag : ℕ) (links : List (P × ℕ)) :
    dueOf sz ((p, tag) :: links) =
      Function.update (dueOf sz links) p (⟨false, sz⟩ :: dueOf sz links p) := by
  funext q
  rcases eq_or_ne q p with rfl | hne
  · rw [Function.update_self, dueOf, List.filter_cons_of_pos (by simp)]
    rfl
  · rw [Function.update_of_ne hne, dueOf, List.filter_cons_of_neg (by simpa using hne.symm)]
    rfl

/-- Reading from the first producer takes its reply. -/
theorem update_dueOf_cons (sz : ℕ) (p : P) (tag : ℕ) (links : List (P × ℕ)) :
    Function.update (dueOf sz ((p, tag) :: links)) p (dueOf sz links p) = dueOf sz links := by
  rw [dueOf_cons, Function.update_idem, Function.update_eq_self]

variable {src : Src P} {links : List (P × ℕ)} {du sz : ℕ}

theorem paired_requestAll {post : Unit → (P → List Due) → Prop} {due : P → List Due}
    (hasks : ∀ x ∈ links, src.Asks x.1 ⟨false, x.2, du⟩)
    (h : post () fun p => due p ++ dueOf (sizeMul src.dtype.bytes du) links p) :
    (requestAll du links).Paired src post due := by
  induction links generalizing due with
  | nil =>
    have heq : (fun p => due p ++ dueOf (sizeMul src.dtype.bytes du) [] p) = due :=
      funext fun p => List.append_nil _
    exact heq ▸ h
  | cons x links ih =>
    obtain ⟨p, tag⟩ := x
    refine ⟨hasks _ List.mem_cons_self, ih (fun x hx => hasks x (List.mem_cons_of_mem _ hx)) ?_⟩
    convert h using 1
    funext q
    rw [dueOf_cons]
    rcases eq_or_ne q p with rfl | hne
    · rw [Function.update_self, Function.update_self, List.append_assoc]
      rfl
    · rw [Function.update_of_ne hne, Function.update_of_ne hne]

theorem paired_readEach {post : List Byte → (P → List Due) → Prop} {off : ℕ} {loc : List Byte}
    (h : ∀ loc, post loc fun _ => []) :
    (readEach sz links off loc).Paired src post (dueOf sz links) := by
  induction links generalizing off loc with
  | nil => exact h loc
  | cons x links ih =>
    obtain ⟨p, tag⟩ := x
    refine paired_bind (paired_readData (by rw [dueOf_cons, Function.update_self]) fun out => ?_)
    rw [update_dueOf_cons]
    exact paired_bind (paired_store fun loc => ih)

theorem paired_reduceEach {post : List Byte → (P → List Due) → Prop}
    {combine : List Byte → List Byte → Option (List Byte)} {loc : List Byte}
    (h : ∀ loc, post loc fun _ => []) :
    (reduceEach sz combine links loc).Paired src post (dueOf sz links) := by
  induction links generalizing loc with
  | nil => exact h loc
  | cons x links ih =>
    obtain ⟨p, tag⟩ := x
    refine paired_bind (paired_readData (by rw [dueOf_cons, Function.update_self]) fun out => ?_)
    rw [update_dueOf_cons]
    exact paired_bind (paired_ofOption fun loc _ => ih)

/-! ## The receive functions -/

/-- **A call that starts with nothing due and leaves nothing due.** -/
def Micro.Complete (src : Src P) (m : Micro P α) : Prop :=
  m.Paired src (fun _ due => ∀ p, due p = []) fun _ => []

/-- A call that asks every producer and then reads every reply. -/
theorem complete_requestAll {rest : Micro P α}
    (hasks : ∀ x ∈ src.links, src.Asks x.1 ⟨false, x.2, du⟩)
    (h : rest.Paired src (fun _ due => ∀ p, due p = [])
      (dueOf (sizeMul src.dtype.bytes du) src.links)) :
    (requestAll du src.links >>= fun _ => rest).Complete src :=
  paired_bind (paired_requestAll hasks h)

variable {A : Arith} {loc : List Byte}

theorem complete_rPipe (hasks : ∀ x ∈ src.links, src.Asks x.1 ⟨false, x.2, du⟩) :
    (rPipe src loc du).Complete src := by
  refine paired_bind (paired_ofOption fun x hx => ⟨hasks x (List.mem_of_mem_head? hx), ?_⟩)
  change ((readData x.1 (sizeMul src.dtype.bytes du)).bind _).Paired src _ _
  refine paired_bind (paired_readData (Function.update_self ..) fun out => ?_)
  refine paired_bind (paired_store fun loc q => ?_)
  rcases eq_or_ne q x.1 with rfl | hne
  · rw [Function.update_self]
  · rw [Function.update_of_ne hne, Function.update_of_ne hne]

theorem complete_rCollect (hasks : ∀ x ∈ src.links, src.Asks x.1 ⟨false, x.2, du⟩) :
    (rCollect src loc du).Complete src :=
  complete_requestAll hasks (paired_bind (paired_readEach fun _ _ => rfl))

theorem complete_rFoldReduce {value : ℕ} {mode : VariableMode}
    (hasks : ∀ x ∈ src.links, src.Asks x.1 ⟨false, x.2, du⟩) :
    (rFoldReduce A value mode src loc du).Complete src :=
  complete_requestAll hasks (paired_bind (paired_ofOption fun _ _ =>
    paired_bind (paired_reduceEach fun _ _ => rfl)))

/-- A reduction that reads from its first producer first. -/
theorem paired_head {post : α → (P → List Due) → Prop} {rest : List Byte → Micro P α}
    (h : ∀ bs, (rest bs).Paired src post (dueOf sz links.tail)) :
    ((Micro.ofOption links.head?).bind fun x => (readData x.1 sz).bind rest).Paired src post
      (dueOf sz links) := by
  refine paired_bind (paired_ofOption fun x hx => ?_)
  obtain ⟨tail, rfl⟩ := List.head?_eq_some_iff.mp hx
  obtain ⟨p, tag⟩ := x
  refine paired_bind (paired_readData (by rw [dueOf_cons, Function.update_self]) fun bs => ?_)
  rw [update_dueOf_cons]
  exact h bs

theorem complete_rSelectReduce {mode : VariableMode}
    (hasks : ∀ x ∈ src.links, src.Asks x.1 ⟨false, x.2, du⟩) :
    (rSelectReduce A mode src loc du).Complete src :=
  complete_requestAll hasks (paired_head fun _ => paired_bind (paired_store fun _ =>
    paired_bind (paired_reduceEach fun _ _ => rfl)))

theorem complete_rMinmaxReduce (hasks : ∀ x ∈ src.links, src.Asks x.1 ⟨false, x.2, du⟩) :
    (rMinmaxReduce A src loc du).Complete src :=
  complete_requestAll hasks (paired_head fun _ => paired_bind (paired_store fun _ =>
    paired_bind (paired_store fun _ => paired_bind (paired_reduceEach fun _ _ => rfl))))

theorem complete_rOptReduce (hasks : ∀ x ∈ src.links, src.Asks x.1 ⟨false, x.2, du⟩) :
    (rOptReduce A src loc du).Complete src :=
  complete_requestAll hasks (paired_bind (paired_readEach fun _ =>
    paired_bind (paired_ofOption fun _ _ => paired_bind (paired_ofOption fun _ _ _ => rfl))))

theorem complete_rCollectAny (hasks : ∀ x ∈ src.links, src.Asks x.1 ⟨true, x.2, du⟩) :
    (rCollectAny src loc du).Complete src :=
  ⟨fun _ => rfl, hasks, fun _ hx => hx, rfl, fun _ _ => paired_bind (paired_store fun _ _ => rfl)⟩

/-- **Every receive function reads the replies to its requests.** -/
theorem complete_r {role : Role} {r} (hr : role.r A = some r) (hd : 1 ≤ du)
    (hfit : src.dtype.bytes * du < 2 ^ 64) : (r src loc du).Complete src := by
  have hasks condRecv : ∀ x ∈ src.links, src.Asks x.1 ⟨condRecv, x.2, du⟩ :=
    fun x hx => ⟨hx, hd, hfit⟩
  cases role <;> simp only [Role.r, reduceCtorEq, Option.some.injEq] at hr <;> subst hr
  case pipe | pipen => exact complete_rPipe (hasks false)
  case reduceSum | reduceMul => exact complete_rFoldReduce (hasks false)
  case reduceMax | reduceMin => exact complete_rSelectReduce (hasks false)
  case reduceMinmax => exact complete_rMinmaxReduce (hasks false)
  case reduceOpt => exact complete_rOptReduce (hasks false)
  case collect => exact complete_rCollect (hasks false)
  case collectAny => exact complete_rCollectAny (hasks true)

/-- A put asks nobody. -/
theorem complete_p {role : Role} {ch : SinkChan P} {c : ℕ} :
    (role.p ch c loc du).Complete src := by
  have hreplicate (rest : List P) (s : ℕ) :
      (replicateEach ch.plist c loc s rest).Complete src := by
    induction rest with
    | nil => exact fun _ => rfl
    | cons tag rest ih => exact paired_bind (paired_ofOption fun _ _ => ih)
  have hspread (rest : List P) (s i off : ℕ) : (spreadEach c loc s rest i off).Complete src := by
    induction rest generalizing i off with
    | nil => exact fun _ => rfl
    | cons _ rest ih => exact paired_bind (paired_ofOption fun _ _ => ih _ _)
  cases role <;> first
    | exact paired_bind (paired_ofOption fun _ _ _ => rfl)
    | exact hreplicate _ _
    | exact hspread _ _ _ _
    | exact fun _ => rfl
    | trivial

/-- **What a program promises of its gets**: their data has a size. -/
def Call.Fits (chans : Chans P) : Call → Prop
  | .get (.src j) (some _) du =>
    ∀ src, chans.srcs[j]? = some src → src.dtype.bytes * du.toNat < 2 ^ 64
  | _ => True

/-- The source of a call that asks nobody. -/
def Src.none : Src P := ⟨.cust, [], .char⟩

/-- **Every call reads the replies to its requests**, if it has any. -/
theorem exists_complete_bcCall (A : Arith) {chans : Chans P} {call : Call}
    (hfits : call.Fits chans) :
    ∃ src, (src = .none ∨ src ∈ chans.srcs) ∧ (bcCall A chans call).Complete src := by
  have hcall := callIs_bcCall A chans call
  generalize bcCall A chans call = micro at hcall ⊢
  cases hcall with
  | refused | fill => exact ⟨.none, .inl rfl, fun _ => rfl⟩
  | null => exact ⟨.none, .inl rfl, trivial⟩
  | put hch => exact ⟨.none, .inl rfl, paired_bind complete_p⟩
  | get hsrc hdu hr =>
    exact ⟨_, .inr (List.mem_of_getElem? hsrc), complete_r hr (by omega) (hfits _ hsrc)⟩

end Libdsys
