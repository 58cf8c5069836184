import Libdsys.Branch.Iface
import Libdsys.Branch.Variable

/-!
# Branch/Calls — `bc_put`, `bc_commit` and `bc_get`

A call is the sequence of what it does to its channel's queue and to the sockets, `Micro`, written
as the source writes it; a copy that leaves a block is a fault.  `Role.p` and `Role.r` are the
columns of `bc_iface` for puts and gets.
-/

open Machinery

namespace Libdsys

/-- `bc_request_t` of a GET or, with `condRecv`, a COND_GET. -/
structure GetRequest where
  condRecv : Bool
  tag : ℕ
  dunits : ℕ
deriving Repr, DecidableEq

/-- What a call does, and what it returns. -/
inductive Micro (P α : Type)
  | done (a : α)
  /-- An access outside a block, or a call of `NULL`. -/
  | fault
  /-- `__bc_putq_mc121` on the `i`-th ring buffer of channel `c`, until there is room. -/
  | put (c i : ℕ) (bs : List Byte) (next : Micro P α)
  /-- A no-copy put on channel `c`, up to its return or its first wait. -/
  | commit (c count : ℕ) (next : Micro P α)
  /-- It was woken, and tests slot `i` again. -/
  | retry (c i : ℕ) (next : Micro P α)
  /-- A store through the variable pointer of channel `c`. -/
  | fill (c off : ℕ) (bs : List Byte) (next : Micro P α)
  /-- `__bc_request_send`. -/
  | request (p : P) (r : GetRequest) (next : Micro P α)
  /-- `__bc_read_data`. -/
  | read (p : P) (n : ℕ) (next : List Byte → Micro P α)
  /-- The loop of `__bc_r_collect_any`, with the producers that are still to be polled in this
  round. -/
  | poll (links rest : List (P × ℕ)) (sz du : ℕ) (next : List Byte → Micro P α)

namespace Micro

variable {P α β : Type}

/-- One call after another. -/
def bind : Micro P α → (α → Micro P β) → Micro P β
  | done a, f => f a
  | fault, _ => fault
  | put c i bs next, f => put c i bs (next.bind f)
  | commit c count next, f => commit c count (next.bind f)
  | retry c i next, f => retry c i (next.bind f)
  | fill c off bs next, f => fill c off bs (next.bind f)
  | request p r next, f => request p r (next.bind f)
  | read p n next, f => read p n fun bs => (next bs).bind f
  | poll links rest sz du next, f => poll links rest sz du fun bs => (next bs).bind f

instance : Monad (Micro P) where
  pure := done
  bind := bind

/-- A value that may be missing. -/
def ofOption : Option α → Micro P α
  | some a => done a
  | none => fault

end Micro

variable {P : Type}

/-- `bc_chan_t` of a source: its peers with their tags, and its data type. -/
structure Src (P : Type) where
  role : Role
  links : List (P × ℕ)
  dtype : Dtype

/-- `bc_chan_t` of a sink and its channel: `role` is the channel's. -/
structure SinkChan (P : Type) where
  role : Role
  plist : List P
  dtype : Dtype
  dunits : ℕ

/-! ## Gets -/

/-- The code a process links its reductions with: floating point, and `bc_reduce_operator`, `none`
where it is `NULL`.  The operator gets the buffer from its argument on. -/
structure Arith where
  floats : FloatOps
  reduceOperator : Option (List Byte → ℕ → ℕ → List Byte)

/-- Nobody reduces floating point, or has an operator. -/
def noArith : Arith where
  floats :=
    { operation dtype _ _ _ := List.replicate dtype.bytes 0
      assign dtype _ := List.replicate dtype.bytes 0
      length_operation _ _ _ _ := List.length_replicate
      length_assign _ _ := List.length_replicate }
  reduceOperator := none

variable (A : Arith)

/-- A request to every producer. -/
def requestAll (du : ℕ) : List (P × ℕ) → Micro P Unit
  | [] => .done ()
  | (p, tag) :: links => .request p ⟨false, tag, du⟩ (requestAll du links)

/-- `__bc_read_data` of `n` bytes. -/
def readData (p : P) (n : ℕ) : Micro P (List Byte) := .read p n .done

/-- Store `bs` at `off`. -/
def store (loc : List Byte) (off : ℕ) (bs : List Byte) : Micro P (List Byte) :=
  .ofOption (writeAt loc off bs)

/-- `__bc_r_pipe`. -/
def rPipe (bc : Src P) (loc : List Byte) (du : ℕ) : Micro P (ℤ × List Byte) := do
  let (p, tag) ← .ofOption bc.links.head?
  .request p ⟨false, tag, du⟩ (.done ())
  let out ← readData p (sizeMul bc.dtype.bytes du)
  let loc ← store loc 0 out
  return (0, loc)

/-- The loop that reads from every producer, each behind the one before. -/
def readEach (sz : ℕ) : List (P × ℕ) → ℕ → List Byte → Micro P (List Byte)
  | [], _, loc => .done loc
  | (p, _) :: links, off, loc => do
    let out ← readData p sz
    let loc ← store loc off out
    readEach sz links (off + sz) loc

/-- `__bc_r_collect`. -/
def rCollect (bc : Src P) (loc : List Byte) (du : ℕ) : Micro P (ℤ × List Byte) := do
  requestAll du bc.links
  let loc ← readEach (sizeMul bc.dtype.bytes du) bc.links 0 loc
  return (0, loc)

/-- `for (i = 0; i < du; i++) bc_variable_assign(dtype, out_ptr, value)`, from `off` on. -/
def assignUnits (dtype : Dtype) (value : ℕ) : ℕ → ℕ → List Byte → Option (List Byte)
  | 0, _, loc => some loc
  | du + 1, off, loc => do
    let loc ← match bcVariableAssign A.floats dtype value with
      | some x => writeAt loc off x
      | none => some loc
    assignUnits dtype value du (off + dtype.bytes) loc

/-- The loop that combines `temp` with the units of `loc` from `off` on. -/
def operateUnits (dtype : Dtype) (mode : VariableMode) (temp : List Byte) :
    ℕ → ℕ → ℕ → List Byte → Option (List Byte)
  | 0, _, _, loc => some loc
  | du + 1, off, toff, loc => do
    let y ← readAt loc off dtype.bytes
    let z ← readAt temp toff dtype.bytes
    let loc ← match bcVariableOperation A.floats dtype mode y z with
      | some x => writeAt loc off x
      | none => some loc
    operateUnits dtype mode temp du (off + dtype.bytes) (toff + dtype.bytes) loc

/-- The loop that reads from every producer and does something with each. -/
def reduceEach (sz : ℕ) (combine : List Byte → List Byte → Option (List Byte)) :
    List (P × ℕ) → List Byte → Micro P (List Byte)
  | [], loc => .done loc
  | (p, _) :: links, loc => do
    let temp ← readData p sz
    let loc ← .ofOption (combine temp loc)
    reduceEach sz combine links loc

/-- `__bc_r_sum_reduce` and `__bc_r_mul_reduce`. -/
def rFoldReduce (value : ℕ) (mode : VariableMode) (bc : Src P) (loc : List Byte) (du : ℕ) :
    Micro P (ℤ × List Byte) := do
  let sz := sizeMul bc.dtype.bytes du
  requestAll du bc.links
  let loc ← .ofOption (assignUnits A bc.dtype value du 0 loc)
  let loc ← reduceEach sz (fun temp => operateUnits A bc.dtype mode temp du 0 0) bc.links loc
  return (0, loc)

/-- `__bc_r_sum_reduce`. -/
def rSumReduce : Src P → List Byte → ℕ → Micro P (ℤ × List Byte) := rFoldReduce A 0 .add

/-- `__bc_r_mul_reduce`. -/
def rMulReduce : Src P → List Byte → ℕ → Micro P (ℤ × List Byte) := rFoldReduce A 1 .multiply

/-- `__bc_r_max_reduce` and `__bc_r_min_reduce`. -/
def rSelectReduce (mode : VariableMode) (bc : Src P) (loc : List Byte) (du : ℕ) :
    Micro P (ℤ × List Byte) := do
  let sz := sizeMul bc.dtype.bytes du
  requestAll du bc.links
  let (p, _) ← .ofOption bc.links.head?
  let out ← readData p sz
  let loc ← store loc 0 out
  let loc ← reduceEach sz (fun temp => operateUnits A bc.dtype mode temp du 0 0) bc.links.tail loc
  return (0, loc)

/-- `__bc_r_max_reduce`. -/
def rMaxReduce : Src P → List Byte → ℕ → Micro P (ℤ × List Byte) := rSelectReduce A .max

/-- `__bc_r_min_reduce`. -/
def rMinReduce : Src P → List Byte → ℕ → Micro P (ℤ × List Byte) := rSelectReduce A .min

/-- `__bc_r_minmax_reduce`. -/
def rMinmaxReduce (bc : Src P) (loc : List Byte) (du : ℕ) : Micro P (ℤ × List Byte) := do
  let sz := sizeMul bc.dtype.bytes du
  requestAll du bc.links
  let (p, _) ← .ofOption bc.links.head?
  let out ← readData p sz
  let loc ← store loc 0 out
  let loc ← store loc sz out
  let loc ← reduceEach sz
    (fun temp loc => do
      let loc ← operateUnits A bc.dtype .min temp du 0 0 loc
      operateUnits A bc.dtype .max temp du sz 0 loc)
    bc.links.tail loc
  return (0, loc)

/-- The last loop of `__bc_r_opt_reduce`: `temp` from its pointer on. -/
def optUnits (operator : List Byte → ℕ → ℕ → List Byte) (bytes count : ℕ) :
    ℕ → ℕ → List Byte → List Byte → Option (List Byte)
  | 0, _, _, loc => some loc
  | du + 1, off, temp, loc => do
    let temp := operator temp bytes count
    let out ← readAt temp 0 bytes
    let loc ← writeAt loc off out
    optUnits operator bytes count du (off + bytes) (temp.drop bytes) loc

/-- `__bc_r_opt_reduce`. -/
def rOptReduce (bc : Src P) (loc : List Byte) (du : ℕ) : Micro P (ℤ × List Byte) := do
  let sz := sizeMul bc.dtype.bytes du
  requestAll du bc.links
  let temp ← readEach sz bc.links 0 (List.replicate (sizeMul sz bc.links.length) 0)
  let operator ← .ofOption A.reduceOperator
  let loc ← .ofOption (optUnits operator bc.dtype.bytes bc.links.length du 0 temp loc)
  return (0, loc)

/-- `__bc_r_collect_any`. -/
def rCollectAny (bc : Src P) (loc : List Byte) (du : ℕ) : Micro P (ℤ × List Byte) :=
  .poll bc.links bc.links (sizeMul bc.dtype.bytes du) du fun out => do
    let loc ← store loc 0 out
    return (0, loc)

/-- `bc_iface[role].r`. -/
def Role.r : Role → Option (Src P → List Byte → ℕ → Micro P (ℤ × List Byte))
  | .pipe | .pipen => some rPipe
  | .reduceSum => some (rSumReduce A)
  | .reduceMul => some (rMulReduce A)
  | .reduceMax => some (rMaxReduce A)
  | .reduceMin => some (rMinReduce A)
  | .reduceMinmax => some (rMinmaxReduce A)
  | .reduceOpt => some (rOptReduce A)
  | .collect => some rCollect
  | .collectAny => some rCollectAny
  | _ => none

/-! ## Puts -/

/-- `__bc_p_pipe`. -/
def pPipe (ch : SinkChan P) (c : ℕ) (loc : List Byte) (du : ℕ) : Micro P ℤ := do
  let bs ← .ofOption (readAt loc 0 (sizeMul ch.dtype.bytes du))
  .put c 0 bs (.done 0)

/-- The loop of `__bc_p_replicate` through the queues: each put looks for its queue by the tag. -/
def replicateEach [DecidableEq P] (plist : List P) (c : ℕ) (loc : List Byte) (s : ℕ) :
    List P → Micro P ℤ
  | [] => .done 0
  | tag :: rest => do
    let bs ← .ofOption (readAt loc 0 s)
    .put c (plist.idxOf tag) bs (replicateEach plist c loc s rest)

/-- `__bc_p_replicate`. -/
def pReplicate [DecidableEq P] (ch : SinkChan P) (c : ℕ) (loc : List Byte) (du : ℕ) : Micro P ℤ :=
  replicateEach ch.plist c loc (sizeMul ch.dtype.bytes du) ch.plist

/-- The loop of `__bc_p_spread` through the queues, from the `i`-th on. -/
def spreadEach (c : ℕ) (loc : List Byte) (s : ℕ) : List P → ℕ → ℕ → Micro P ℤ
  | [], _, _ => .done 0
  | _ :: rest, i, off => do
    let bs ← .ofOption (readAt loc off s)
    .put c i bs (spreadEach c loc s rest (i + 1) (off + s))

/-- `__bc_p_spread`. -/
def pSpread (ch : SinkChan P) (c : ℕ) (loc : List Byte) (du : ℕ) : Micro P ℤ :=
  spreadEach c loc (sizeMul ch.dtype.bytes du) ch.plist 0 0

/-- `__bc_p_pipen`, `__bc_p_replicaten` and `__bc_p_farmn`: `local` and `du` are not used. -/
def pNoCopy (count c : ℕ) : Micro P ℤ := .commit c count (.done 0)

/-- `bc_iface[role].p` of channel `c`.  No link was destroyed: `c->rc` is the number of
consumers. -/
def Role.p [DecidableEq P] (role : Role) (ch : SinkChan P) (c : ℕ) (loc : List Byte) (du : ℕ) :
    Micro P ℤ :=
  match role with
  | .pipe => pPipe ch c loc du
  | .pipen => pNoCopy 1 c
  | .replicate => pReplicate ch c loc du
  | .replicaten => pNoCopy ch.plist.length c
  | .farm | .farmn => pNoCopy ch.plist.length c
  | .spread => pSpread ch c loc du
  | _ => .fault

/-! ## Calls -/

/-- `bc_chan_t *`: one of the sinks or of the sources of the process. -/
inductive Handle
  | sink (c : ℕ)
  | src (j : ℕ)
deriving DecidableEq

/-- A call of the computation thread.  A `local` of `none` is `NULL`. -/
inductive Call
  | put (bc : Handle) (loc : Option (List Byte)) (du : ℤ)
  | commit (bc : Handle)
  | get (bc : Handle) (loc : Option (List Byte)) (du : ℤ)
  /-- A store through the variable pointer of a no-copy sink. -/
  | fill (c off : ℕ) (bs : List Byte)

/-- `BC_EIBC`. -/
def bcEibc : ℤ := 7

/-- `BC_EIFUNC`. -/
def bcEifunc : ℤ := 8

/-- `BC_EIPTR`. -/
def bcEiptr : ℤ := 14

/-- `BC_EIVAL`. -/
def bcEival : ℤ := 15

/-- The sinks and sources of a process. -/
structure Chans (P : Type) where
  sinks : List (SinkChan P)
  srcs : List (Src P)

/-- `bc_put`. -/
def bcPut [DecidableEq P] (chans : Chans P) (bc : Handle) (loc : Option (List Byte)) (du : ℤ) :
    Micro P (ℤ × List Byte) :=
  match bc with
  | .src _ => .done (bcEifunc, loc.getD [])
  | .sink c =>
    match chans.sinks[c]?, loc with
    | none, _ => .done (bcEibc, loc.getD [])
    | some _, none => .done (bcEiptr, [])
    | some ch, some loc =>
      if du < 1 then .done (bcEival, loc)
      else do
        let ret ← ch.role.p ch c loc du.toNat
        return (ret, loc)

/-- `bc_commit`: a put of one unit from `NULL`. -/
def bcCommit [DecidableEq P] (chans : Chans P) (bc : Handle) : Micro P (ℤ × List Byte) :=
  match bc with
  | .src _ => .done (bcEifunc, [])
  | .sink c =>
    match chans.sinks[c]? with
    | none => .done (bcEibc, [])
    | some ch => do
      let ret ← ch.role.p ch c [] 1
      return (ret, [])

/-- `bc_get`: what it returns, and `local` after it. -/
def bcGet (chans : Chans P) (bc : Handle) (loc : Option (List Byte)) (du : ℤ) :
    Micro P (ℤ × List Byte) :=
  match bc with
  | .sink _ => .done (bcEifunc, loc.getD [])
  | .src j =>
    match chans.srcs[j]?, loc with
    | none, _ => .done (bcEibc, loc.getD [])
    | some _, none => .done (bcEiptr, [])
    | some src, some loc =>
      if du < 1 then .done (bcEival, loc)
      else
        match src.role.r A with
        | none => .fault
        | some r => r src loc du.toNat

/-- A call. -/
def bcCall [DecidableEq P] (chans : Chans P) : Call → Micro P (ℤ × List Byte)
  | .put bc loc du => bcPut chans bc loc du
  | .commit bc => bcCommit chans bc
  | .get bc loc du => bcGet A chans bc loc du
  | .fill c off bs => .fill c off bs (.done (0, []))

/-- **What a call can be**: it returns at once, it is a put on its channel or a get from its source,
or it stores. -/
inductive CallIs [DecidableEq P] (chans : Chans P) : Call → Micro P (ℤ × List Byte) → Prop
  | refused {call out} : CallIs chans call (.done out)
  | put {call c} {ch : SinkChan P} {loc du out} (hch : chans.sinks[c]? = some ch) :
    CallIs chans call ((ch.role.p ch c loc du).bind fun ret => .done (ret, out))
  | null {call} : CallIs chans call .fault
  | get {j} {src : Src P} {loc du r} (hsrc : chans.srcs[j]? = some src) (hdu : 1 ≤ du)
    (hr : src.role.r A = some r) :
    CallIs chans (.get (.src j) (some loc) du) (r src loc du.toNat)
  | fill {c off bs} : CallIs chans (.fill c off bs) (.fill c off bs (.done (0, [])))

theorem callIs_bcCall [DecidableEq P] (chans : Chans P) (call : Call) :
    CallIs A chans call (bcCall A chans call) := by
  cases call with
  | put bc loc du =>
    cases bc with
    | src j => exact .refused
    | sink c =>
      cases hch : chans.sinks[c]? with
      | none => simp only [bcCall, bcPut, hch]; exact .refused
      | some ch =>
        cases loc with
        | none => simp only [bcCall, bcPut, hch]; exact .refused
        | some loc =>
          simp only [bcCall, bcPut, hch]
          split
          · exact .refused
          · exact .put hch
  | commit bc =>
    cases bc with
    | src j => exact .refused
    | sink c =>
      cases hch : chans.sinks[c]? with
      | none => simp only [bcCall, bcCommit, hch]; exact .refused
      | some ch => simp only [bcCall, bcCommit, hch]; exact .put hch
  | get bc loc du =>
    cases bc with
    | sink c => exact .refused
    | src j =>
      cases hsrc : chans.srcs[j]? with
      | none => simp only [bcCall, bcGet, hsrc]; exact .refused
      | some src =>
        cases loc with
        | none => simp only [bcCall, bcGet, hsrc]; exact .refused
        | some loc =>
          simp only [bcCall, bcGet, hsrc]
          split
          · exact .refused
          · split
            · exact .null
            · next hdu r hr => exact .get hsrc (by omega) hr
  | fill c off bs => exact .fill

end Libdsys
