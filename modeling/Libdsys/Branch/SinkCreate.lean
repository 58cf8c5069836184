import Mathlib.Algebra.Group.Nat.Defs
import Libdsys.Machinery.Alloc
import Libdsys.Machinery.Runs
import Libdsys.Ltab.Tags
import Libdsys.Branch.Iface

/-!
# Branch/SinkCreate — creating a channel when allocations fail

`bc_sink_create` allocates its `bc_chan_t`, the tags, the channel, the queue and its parts, each
layer with a clean-up of its own, and last a link for each consumer.

    handle ▸ tags ▸ channel ▸ queue ▸ its parts ‖ links

What comes before `‖` is undone when it fails; the links are not, and `__bc_link_insert` is not
asked whether it inserted them all.

* `takes_bcSinkCreate` — the clean-ups are right, in every layer.
* `all_or_nothing_iff` — the call is all-or-nothing unless a link is refused.
-/

open Machinery

namespace Libdsys.Alloc

variable {P σ : Type}

/-! ## Queues -/

/-- A `bc_mc121_t` and its buffer. -/
structure Ring where
  q : ℕ
  buffStart : ℕ
deriving Repr, DecidableEq

/-- A node of the list of queues. -/
structure Node (P : Type) where
  temp : ℕ
  mc121 : Ring
  tag : P
deriving Repr, DecidableEq

/-- A no-copy queue: `bc_nmc12m_t` or `bc_farmn_q_t`, its buffer and its reference counters. -/
structure Slots where
  q : ℕ
  start : ℕ
  rc : ℕ
deriving Repr, DecidableEq

/-- `bc_queue_t`. -/
inductive Queue (P : Type)
  | mc121 (q : ℕ) (mc121 : Ring)
  | mc12m (q : ℕ) (mc12m : List (Node P))
  | nmc12m (q : ℕ) (nmc12m : Slots)
  | farmn (q : ℕ) (nmcus : Slots)
deriving Repr, DecidableEq

/-- `__bc_mc121_create`. -/
def mc121Create : StateM (Mem σ) (Option Ring) :=
  ifNull malloc (pure ()) fun q =>
  ifNull malloc (free q) fun buffStart =>
  pure (some ⟨q, buffStart⟩)

/-- `__bc_mc121_destroy`. -/
def mc121Destroy (r : Ring) : StateM (Mem σ) Unit := do
  free r.buffStart
  free r.q

/-- `__bc_c_mc121`. -/
def cMc121 : StateM (Mem σ) (Option (Queue P)) :=
  ifNull malloc (pure ()) fun q =>
  ifNull mc121Create (free q) fun mc121 =>
  pure (some (.mc121 q mc121))

/-- `__bc_destroy_queue_list`. -/
def destroyQueueList : List (Node P) → StateM (Mem σ) Unit
  | [] => pure ()
  | temp :: q => do
    mc121Destroy temp.mc121
    free temp.temp
    destroyQueueList q

/-- The loop of `__bc_c_mc12m` over the process list, with the queues it has made. -/
def cMc12mLoop (q : ℕ) (mc12m : List (Node P)) : List P → StateM (Mem σ) (Option (Queue P))
  | [] => pure (some (.mc12m q mc12m))
  | tag :: pl =>
    ifNull malloc (do destroyQueueList mc12m; free q) fun temp =>
    ifNull mc121Create (do free temp; destroyQueueList mc12m; free q) fun mc121 =>
    cMc12mLoop q (mc12m ++ [⟨temp, mc121, tag⟩]) pl

/-- `__bc_c_mc12m`. -/
def cMc12m (pl : List P) : StateM (Mem σ) (Option (Queue P)) :=
  ifNull malloc (pure ()) fun q => cMc12mLoop q [] pl

/-- What the creation of a no-copy queue allocates: its record, its buffer, its counters. -/
def slotsCreate : StateM (Mem σ) (Option Slots) :=
  ifNull malloc (pure ()) fun q =>
  ifNull malloc (free q) fun start =>
  ifNull malloc (do free start; free q) fun rc =>
  pure (some ⟨q, start, rc⟩)

/-- `__bc_internal_nmc12m_create`. -/
def internalNmc12mCreate : StateM (Mem σ) (Option Slots) := slotsCreate

/-- `__bc_c_nmc12m`. -/
def cNmc12m : StateM (Mem σ) (Option (Queue P)) :=
  ifNull malloc (pure ()) fun q =>
  ifNull internalNmc12mCreate (free q) fun nmc12m =>
  pure (some (.nmc12m q nmc12m))

/-- `__bc_internal_farmn_q_create`. -/
def internalFarmnQCreate : StateM (Mem σ) (Option Slots) := slotsCreate

/-- `__bc_c_farmn_q`. -/
def cFarmnQ : StateM (Mem σ) (Option (Queue P)) :=
  ifNull malloc (pure ()) fun q =>
  ifNull internalFarmnQCreate (free q) fun nmcus =>
  pure (some (.farmn q nmcus))

/-! ## Channels -/

/-- A `bc_dtype_t` or a `bc_plist_t`, as far as its users are counted. -/
structure Counted where
  /-- Its `code` is `BC_DTYPE_CUST`, or its `type` is `__BC_PLIST_CUST`. -/
  custom : Bool
  rc : BitVec 32
deriving Repr, DecidableEq

/-- One user more; what is not custom is not counted. -/
def Counted.ref (r : Counted) : Counted := if r.custom then { r with rc := r.rc + 1 } else r

/-- What `bc_sink_create` changes besides memory: the lookup table, and the reference counts of
data types and of process lists. -/
structure Tables (P : Type) where
  ltab : P → Hook
  dtypes : ℕ → Counted
  plists : ℕ → Counted

/-- A process, as far as the creation of channels goes. -/
abbrev Heap (P : Type) := Mem (Tables P)

/-- `bc_channel_t`; `rc` where it is set. -/
structure Channel (P : Type) where
  c : ℕ
  role : Role
  qtype : Qtype
  q : Queue P
  dtype : ℕ
  rc : Option ℕ
deriving Repr, DecidableEq

/-- `__bc_internal_dtype_ref`. -/
def dtypeRef (dtype : ℕ) : StateM (Heap P) Unit := fun m =>
  ((), { m with rest := { m.rest with
    dtypes := Function.update m.rest.dtypes dtype (m.rest.dtypes dtype).ref } })

/-- `__bc_internal_plist_ref`. -/
def plistRef (pl : ℕ) : StateM (Heap P) Unit := fun m =>
  ((), { m with rest := { m.rest with
    plists := Function.update m.rest.plists pl (m.rest.plists pl).ref } })

/-- What the constructors of the roles have in common. -/
def channelCreate (role : Role) (qtype : Qtype) (rc : Option ℕ) (dtype : ℕ)
    (queue : StateM (Heap P) (Option (Queue P))) : StateM (Heap P) (Option (Channel P)) :=
  ifNull malloc (pure ()) fun c =>
  ifNull queue (free c) fun q => do
    dtypeRef dtype
    pure (some ⟨c, role, qtype, q, dtype, rc⟩)

/-- A constructor of channels: from a process list and a data type. -/
abbrev Constructor (P : Type) := List P → ℕ → StateM (Heap P) (Option (Channel P))

/-- `__bc_c_pipe`. -/
def cPipe : Constructor P := fun _ dtype => channelCreate .pipe .mc121 none dtype cMc121

/-- `__bc_c_pipen`. -/
def cPipen : Constructor P := fun _ dtype => channelCreate .pipen .nmc12m none dtype cNmc12m

/-- `__bc_c_replicate`. -/
def cReplicate : Constructor P := fun pl dtype =>
  channelCreate .replicate .mc12m (some pl.length) dtype (cMc12m pl)

/-- `__bc_c_replicaten`. -/
def cReplicaten : Constructor P := fun pl dtype =>
  channelCreate .replicaten .nmc12m (some pl.length) dtype cNmc12m

/-- `__bc_c_farmn`. -/
def cFarmn : Constructor P := fun pl dtype =>
  channelCreate .farmn .farmn (some pl.length) dtype cFarmnQ

/-- `__bc_c_spread`. -/
def cSpread : Constructor P := fun pl dtype =>
  channelCreate .spread .mc12m (some pl.length) dtype (cMc12m pl)

/-- `bc_iface[role].c`. -/
def ifaceC : Role → Option (Constructor P)
  | .pipe => some cPipe
  | .pipen => some cPipen
  | .replicate => some cReplicate
  | .replicaten => some cReplicaten
  | .farm => some cFarmn
  | .farmn => some cFarmn
  | .spread => some cSpread
  | _ => none

/-! ## Sinks -/

/-- `bc_chan_t` of a sink. -/
structure Bc (P : Type) where
  bc : ℕ
  /-- The block of the tags, and what is in it. -/
  tags : ℕ
  tag : List ℕ
  channel : Channel P
  plist : List P
deriving Repr, DecidableEq

section Sink

variable [DecidableEq P]

/-- `for (i = 0; i < cons->count; i++) bc->tags[i] = __bc_ptag(cons->plist[i])`. -/
def ptags (cons : List P) : StateM (Heap P) (List ℕ) := fun m =>
  let (tags, ltab) := drawTags ptag m.rest.ltab cons
  (tags, { m with rest := { m.rest with ltab } })

/-- The same for a source, with `__bc_gtag`. -/
def gtags (prod : List P) : StateM (Heap P) (List ℕ) := fun m =>
  let (tags, ltab) := drawTags gtag m.rest.ltab prod
  (tags, { m with rest := { m.rest with ltab } })

/-- The critical section of `__bc_link_insert`. -/
def hookLink (rank : P) (link : Link) (ltab : P → Hook) : P → Hook :=
  Function.update ltab rank { ltab rank with links := link :: (ltab rank).links }

/-- `__bc_link_insert`, from some consumer on. -/
def linkInsert (channel : ℕ) : List (P × ℕ) → StateM (Heap P) ℤ
  | [] => pure 0
  | (rank, tag) :: rest => do
    match ← malloc with
    | none => pure (-1)
    | some _ =>
      modify fun m => { m with rest := { m.rest with
        ltab := hookLink rank ⟨tag, channel⟩ m.rest.ltab } }
      linkInsert channel rest

/-- `bc_sink_create`, past the checks of its arguments; `c` is `bc_iface[role].c`. -/
def bcSinkCreate (c : Constructor P) (pl : ℕ) (cons : List P) (dtype : ℕ) :
    StateM (Heap P) (Option (Bc P)) :=
  ifNull malloc (pure ()) fun bc =>
  ifNull malloc (free bc) fun tags =>
  ifNull (c cons dtype) (do free tags; free bc) fun channel => do
    dtypeRef dtype
    plistRef pl
    let tag ← ptags cons
    let _ ← linkInsert channel.c (cons.zip tag)
    pure (some ⟨bc, tags, tag, channel, cons⟩)

end Sink

/-! ## What each layer takes -/

/-- The blocks of a `bc_mc121_t`. -/
def Ring.blocks (r : Ring) : List ℕ := [r.buffStart, r.q]

/-- The blocks of a node, as `__bc_destroy_queue_list` frees them. -/
def Node.blocks (temp : Node P) : List ℕ := temp.mc121.blocks ++ [temp.temp]

def Slots.blocks (s : Slots) : List ℕ := [s.q, s.start, s.rc]

def Queue.blocks : Queue P → List ℕ
  | .mc121 q ring => q :: ring.blocks
  | .mc12m q nodes => nodes.flatMap Node.blocks ++ [q]
  | .nmc12m q slots => q :: slots.blocks
  | .farmn q slots => q :: slots.blocks

/-- Two blocks, freed in the reverse order. -/
theorem frees_pair (b b' : ℕ) : Frees (do free b; free b' : StateM (Mem σ) Unit) [b', b] :=
  ((frees_free b).seq (frees_free b')).perm (List.Perm.swap _ _ _)

theorem takes_mc121Create : Takes [] 2 (mc121Create : StateM (Mem σ) _) (Gives [] 2 Ring.blocks) :=
  takes_malloc.gives frees_nil fun q => takes_malloc.gives (frees_free q) fun _ =>
    takes_pure (List.Perm.swap _ _ _)

theorem takes_cMc121 : Takes [] 3 (cMc121 : StateM (Mem σ) (Option (Queue P)))
    (Gives [] 3 Queue.blocks) :=
  takes_malloc.gives frees_nil fun q => takes_mc121Create.gives (frees_free q) fun _ =>
    takes_pure (.refl _)

theorem frees_mc121Destroy (r : Ring) :
    Frees (mc121Destroy r : StateM (Mem σ) Unit) r.blocks :=
  (frees_free r.buffStart).seq (frees_free r.q)

theorem frees_destroyQueueList (mc12m : List (Node P)) :
    Frees (destroyQueueList mc12m : StateM (Mem σ) Unit) (mc12m.flatMap Node.blocks) := by
  induction mc12m with
  | nil => exact frees_nil
  | cons temp mc12m ih =>
    refine ((frees_mc121Destroy temp.mc121).seq ((frees_free temp.temp).seq ih)).perm (.of_eq ?_)
    rw [List.flatMap_cons, Node.blocks, List.append_assoc]

/-- **The loop over the consumers** frees the nodes it has made, and the `bc_queue_t`. -/
theorem takes_cMc12mLoop (q : ℕ) (mc12m : List (Node P)) (pl : List P) :
    Takes (Queue.mc12m q mc12m).blocks (3 * pl.length)
      (cMc12mLoop q mc12m pl : StateM (Mem σ) (Option (Queue P)))
      (Gives (Queue.mc12m q mc12m).blocks (3 * pl.length) Queue.blocks) := by
  induction pl generalizing mc12m with
  | nil => exact takes_pure (.refl _)
  | cons tag pl ih =>
    rw [List.length_cons, show 3 * (pl.length + 1) = 1 + (2 + 3 * pl.length) by omega]
    have hmade : Frees (do destroyQueueList mc12m; free q : StateM (Mem σ) Unit)
        (Queue.mc12m q mc12m).blocks := (frees_destroyQueueList mc12m).seq (frees_free q)
    refine takes_malloc.gives hmade fun temp => takes_mc121Create.gives ?_ fun mc121 => ?_
    · exact ((frees_free temp).seq hmade).perm List.perm_append_comm
    · refine (ih (mc12m ++ [⟨temp, mc121, tag⟩])).perm ?_
      simp only [Queue.blocks, Node.blocks, List.flatMap_append, List.flatMap_singleton,
        List.append_assoc]
      refine (List.Perm.refl _).append ?_
      exact List.perm_iff_count.mpr fun b => by simp only [List.count_append]; omega

theorem takes_cMc12m (pl : List P) : Takes [] (1 + 3 * pl.length)
    (cMc12m pl : StateM (Mem σ) (Option (Queue P))) (Gives [] (1 + 3 * pl.length) Queue.blocks) :=
  takes_malloc.gives frees_nil fun q => takes_cMc12mLoop q [] pl

theorem takes_slotsCreate :
    Takes [] 3 (slotsCreate : StateM (Mem σ) _) (Gives [] 3 Slots.blocks) :=
  takes_malloc.gives frees_nil fun q => takes_malloc.gives (frees_free q) fun start =>
    takes_malloc.gives (frees_pair start q) fun _ => takes_pure (.refl _)

theorem takes_cNmc12m : Takes [] 4 (cNmc12m : StateM (Mem σ) (Option (Queue P)))
    (Gives [] 4 Queue.blocks) :=
  takes_malloc.gives frees_nil fun q => takes_slotsCreate.gives (frees_free q) fun _ =>
    takes_pure (.refl _)

theorem takes_cFarmnQ : Takes [] 4 (cFarmnQ : StateM (Mem σ) (Option (Queue P)))
    (Gives [] 4 Queue.blocks) :=
  takes_malloc.gives frees_nil fun q => takes_slotsCreate.gives (frees_free q) fun _ =>
    takes_pure (.refl _)

/-- What the creation of a channel over `n` processes takes. -/
def channelTakes (n : ℕ) : Qtype → ℕ
  | .mc121 => 1 + 3
  | .mc12m => 1 + (1 + 3 * n)
  | .nmc12m => 1 + 4
  | .farmn => 1 + 4
  | _ => 0

/-- A channel is made, and refers to its data type. -/
def Made (n dtype : ℕ) (m : Heap P) (_ : Channel P) (m' : Heap P) : Prop :=
  m' = (dtypeRef dtype (m.after n [])).2

theorem takes_channelCreate {role : Role} {qtype : Qtype} {rc : Option ℕ} {dtype n : ℕ}
    {queue : StateM (Heap P) (Option (Queue P))} (h : Takes [] n queue (Gives [] n Queue.blocks)) :
    Takes [] (1 + n) (channelCreate role qtype rc dtype queue) (Made (1 + n) dtype) := by
  refine takes_malloc.ifNull frees_nil
    (Q := fun c m ch m' => m' = (dtypeRef dtype (m.after n [])).2) (fun c => ?_) ?_
  · refine h.ifNull_last (frees_free c) ?_
    rintro m q m' ⟨rfl, -⟩
    exact ⟨_, _, rfl, rfl⟩
  · rintro m c ch m' - rfl
    rw [Made, Mem.after_after]
    rfl

/-- **Every role that makes a channel** undoes it layer by layer. -/
theorem exists_takes_of_ifaceC {role : Role} {c : Constructor P} (hc : ifaceC role = some c) :
    ∃ role' qtype, role.c = some (role', qtype) ∧ ∀ cons dtype,
      Takes [] (channelTakes cons.length qtype) (c cons dtype)
        (Made (channelTakes cons.length qtype) dtype) := by
  cases role with
  | pipe =>
    obtain rfl := Option.some.inj hc
    exact ⟨_, _, rfl, fun _ _ => takes_channelCreate takes_cMc121⟩
  | pipen =>
    obtain rfl := Option.some.inj hc
    exact ⟨_, _, rfl, fun _ _ => takes_channelCreate takes_cNmc12m⟩
  | replicate =>
    obtain rfl := Option.some.inj hc
    exact ⟨_, _, rfl, fun cons _ => takes_channelCreate (takes_cMc12m cons)⟩
  | replicaten =>
    obtain rfl := Option.some.inj hc
    exact ⟨_, _, rfl, fun _ _ => takes_channelCreate takes_cNmc12m⟩
  | farm =>
    obtain rfl := Option.some.inj hc
    exact ⟨_, _, rfl, fun _ _ => takes_channelCreate takes_cFarmnQ⟩
  | farmn =>
    obtain rfl := Option.some.inj hc
    exact ⟨_, _, rfl, fun _ _ => takes_channelCreate takes_cFarmnQ⟩
  | spread =>
    obtain rfl := Option.some.inj hc
    exact ⟨_, _, rfl, fun cons _ => takes_channelCreate (takes_cMc12m cons)⟩
  | _ => cases hc

section Sink

variable [DecidableEq P]

/-! ## Links -/

/-- The hooks with the links `xs` inserted, first one first. -/
def hookLinks (channel : ℕ) (xs : List (P × ℕ)) (ltab : P → Hook) : P → Hook :=
  xs.foldl (fun ltab x => hookLink x.1 ⟨x.2, channel⟩ ltab) ltab

theorem mem_hookLinks {channel : ℕ} {xs : List (P × ℕ)} {ltab : P → Hook} {r : P} {l : Link} :
    l ∈ (hookLinks channel xs ltab r).links ↔
      l ∈ (ltab r).links ∨ l.channel = channel ∧ (r, l.tag) ∈ xs := by
  induction xs generalizing ltab with
  | nil => simp [hookLinks]
  | cons x xs ih =>
    refine (@ih (hookLink x.1 ⟨x.2, channel⟩ ltab)).trans ?_
    have hhead : l ∈ (hookLink x.1 ⟨x.2, channel⟩ ltab r).links ↔
        l ∈ (ltab r).links ∨ l.channel = channel ∧ (r, l.tag) = x := by
      rcases eq_or_ne r x.1 with rfl | hne
      · have hlink : l = ⟨x.2, channel⟩ ↔ l.channel = channel ∧ (x.1, l.tag) = x := by
          cases l
          cases x
          simp [and_comm]
        simp [hookLink, hlink, or_comm]
      · have hx : (r, l.tag) ≠ x := fun h => hne (congrArg Prod.fst h)
        simp [hookLink, hne, hx]
    rw [hhead, List.mem_cons]
    tauto

/-- A link is inserted, or its hook is as it was. -/
theorem sinkTag_hookLinks (channel : ℕ) (xs : List (P × ℕ)) (ltab : P → Hook) (r : P) :
    (hookLinks channel xs ltab r).sinkTag = (ltab r).sinkTag := by
  induction xs generalizing ltab with
  | nil => rfl
  | cons x xs ih =>
    refine (ih _).trans ?_
    rcases eq_or_ne r x.1 with rfl | hne
    · simp [hookLink]
    · simp [hookLink, hne]

theorem linkInsert_cons (channel : ℕ) (rank : P) (tag : ℕ) (xs : List (P × ℕ)) (m : Heap P) :
    linkInsert channel ((rank, tag) :: xs) m =
      match malloc m with
      | (none, m') => (-1, m')
      | (some _, m') => linkInsert channel xs { m' with
          rest := { m'.rest with ltab := hookLink rank ⟨tag, channel⟩ m'.rest.ltab } } := by
  rcases hmalloc : malloc m with ⟨_ | b, m'⟩
  · rw [linkInsert]
    simp only [bind, StateT.bind, hmalloc]
    rfl
  · rw [linkInsert]
    simp only [bind, StateT.bind, hmalloc, modify, modifyGet, MonadStateOf.modifyGet,
      StateT.modifyGet]
    rfl

/-- **`__bc_link_insert` stops at the first link it is refused.** -/
theorem linkInsert_eq (channel : ℕ) (xs : List (P × ℕ)) (m : Heap P) :
    ∃ j ≤ xs.length, m.Grants j ∧ (j < xs.length → m.fails (m.calls + j) = true) ∧
      (linkInsert channel xs m).2.rest =
        { m.rest with ltab := hookLinks channel (xs.take j) m.rest.ltab } := by
  induction xs generalizing m with
  | nil => exact ⟨0, Nat.le_refl _, m.grants_zero, nofun, rfl⟩
  | cons x xs ih =>
    obtain ⟨rank, tag⟩ := x
    cases hfails : m.fails m.calls with
    | true =>
      refine ⟨0, Nat.zero_le _, m.grants_zero, fun _ => hfails, ?_⟩
      rw [linkInsert_cons, malloc, if_pos hfails]
      rfl
    | false =>
      obtain ⟨j, hj, hgrants, hlast, hrest⟩ := ih { m.after 1 [] with
        rest := { m.rest with ltab := hookLink rank ⟨tag, channel⟩ m.rest.ltab } }
      have hone : m.Grants 1 := fun k hk => by
        obtain rfl : k = 0 := by omega
        exact hfails
      have hsucc : m.Grants (j + 1) := Nat.add_comm 1 j ▸ Mem.grants_add.mpr ⟨hone, hgrants⟩
      refine ⟨j + 1, Nat.succ_le_succ hj, hsucc, fun hlt => ?_, ?_⟩
      · have := hlast (Nat.lt_of_succ_lt_succ hlt)
        rwa [Nat.add_comm j, ← Nat.add_assoc]
      · rw [linkInsert_cons, malloc, if_neg (by simp [hfails])]
        exact hrest

/-! ## All or nothing -/

/-- What `bc_sink_create` takes before the links. -/
def sinkTakes (role : Role) (n : ℕ) : ℕ :=
  match role.c with
  | some (_, qtype) => 1 + (1 + channelTakes n qtype)
  | none => 0

/-- What a sink with its tags leaves behind, its links to be inserted. -/
def tagged (n pl dtype : ℕ) (cons : List P) (m : Heap P) : Heap P :=
  let m := (plistRef pl (dtypeRef dtype (dtypeRef dtype (m.after n [])).2).2).2
  { m with rest := { m.rest with ltab := (drawTags ptag m.rest.ltab cons).2 } }

/-- The tags are drawn, and the links inserted as far as memory allows. -/
def Linked (n pl dtype : ℕ) (cons : List P) (m : Heap P) (bc : Bc P) (m' : Heap P) : Prop :=
  bc.tag = (drawTags ptag m.rest.ltab cons).1 ∧
    m' = (linkInsert bc.channel.c (cons.zip bc.tag) (tagged n pl dtype cons m)).2

theorem Linked.after {n k pl dtype : ℕ} {cons : List P} {m m' : Heap P} {bc : Bc P}
    (h : Linked n pl dtype cons (m.after k []) bc m') : Linked (k + n) pl dtype cons m bc m' := by
  refine ⟨h.1, h.2.trans ?_⟩
  rw [tagged, tagged, Mem.after_after]
  rfl

/-- **Up to its links, `bc_sink_create` undoes all it has done.** -/
theorem takes_bcSinkCreate {role : Role} {c : Constructor P} (hc : ifaceC role = some c) (pl : ℕ)
    (cons : List P) (dtype : ℕ) :
    Takes [] (sinkTakes role cons.length) (bcSinkCreate c pl cons dtype)
      (Linked (sinkTakes role cons.length) pl dtype cons) := by
  obtain ⟨role', qtype, hrole, hmade⟩ := exists_takes_of_ifaceC hc
  rw [show sinkTakes role cons.length = 1 + (1 + channelTakes cons.length qtype) by
    simp [sinkTakes, hrole]]
  refine takes_malloc.ifNull frees_nil (fun bc => ?_) fun _ _ _ _ _ h => Linked.after h
  refine takes_malloc.ifNull (frees_free bc) (fun tags => ?_) fun _ _ _ _ _ h => Linked.after h
  refine (hmade cons dtype).ifNull_last (frees_pair tags bc) ?_
  rintro m channel m' rfl
  exact ⟨_, _, rfl, rfl, rfl⟩

/-- `bc_sink_create` returns `NULL` exactly when it is refused an allocation before its links. -/
theorem bcSinkCreate_null_iff {role : Role} {c : Constructor P} (hc : ifaceC role = some c) (pl : ℕ)
    (cons : List P) (dtype : ℕ) (m : Heap P) :
    (bcSinkCreate c pl cons dtype m).1 = none ↔ ¬m.Grants (sinkTakes role cons.length) :=
  (takes_bcSinkCreate hc pl cons dtype).null_iff m

/-- The call is all-or-nothing: either it returns `NULL`, and the tag counters, the lookup table and
the reference counts are as they were, and of the blocks it was given each was freed once; or every
consumer has a link with its tag. -/
def AllOrNothing (cons : List P) (m : Heap P) : Option (Bc P) × Heap P → Prop
  | (none, m') => m'.rest = m.rest ∧ ∃ new : List ℕ, m'.freed = m.freed ++ new ∧
      new.Perm (m.granted (m'.calls - m.calls))
  | (some bc, m') => bc.tag.length = cons.length ∧ ∀ x ∈ cons.zip bc.tag,
      ∃ l ∈ (m'.rest.ltab x.1).links, l.tag = x.2

/-- Every link of a hook has a tag the hook has drawn. -/
def Drawn (ltab : P → Hook) : Prop := ∀ r, ∀ l ∈ (ltab r).links, l.tag < (ltab r).sinkTag

theorem sinkTag_le_drawTags (ltab : P → Hook) (cons : List P) (r : P) :
    (ltab r).sinkTag ≤ ((drawTags ptag ltab cons).2 r).sinkTag := by
  induction cons generalizing ltab with
  | nil => exact Nat.le_refl _
  | cons rank cons ih =>
    refine le_trans ?_ (ih (Function.update ltab rank (ptag (ltab rank)).2))
    rcases eq_or_ne r rank with rfl | hne
    · simp [ptag]
    · simp [hne]

/-- **The tags of a sink are new**: none was drawn before, and no consumer has two of them. -/
theorem drawTags_new (ltab : P → Hook) (cons : List P) :
    (cons.zip (drawTags ptag ltab cons).1).Nodup ∧
      ∀ x ∈ cons.zip (drawTags ptag ltab cons).1, (ltab x.1).sinkTag ≤ x.2 ∧
        x.2 < ((drawTags ptag ltab cons).2 x.1).sinkTag := by
  induction cons generalizing ltab with
  | nil => exact ⟨List.nodup_nil, nofun⟩
  | cons rank cons ih =>
    obtain ⟨hnodup, hnew⟩ := ih (Function.update ltab rank (ptag (ltab rank)).2)
    have hlast := sinkTag_le_drawTags (Function.update ltab rank (ptag (ltab rank)).2) cons rank
    rw [Function.update_self] at hlast
    refine ⟨List.nodup_cons.mpr ⟨fun hmem => ?_, hnodup⟩, fun x hx => ?_⟩
    · have := (hnew _ hmem).1
      rw [Function.update_self] at this
      exact absurd this (Nat.not_succ_le_self _)
    · rcases List.mem_cons.mp hx with rfl | hx
      · exact ⟨Nat.le_refl _, hlast⟩
      · obtain ⟨hle, hlt⟩ := hnew x hx
        refine ⟨le_trans ?_ hle, hlt⟩
        rcases eq_or_ne x.1 rank with heq | hne
        · simp [heq, ptag]
        · simp [hne]

/-- The memory after a sink that got its `bc_chan_t`, when the `j`-th of its links was refused. -/
theorem Linked.exists_rest {n pl dtype : ℕ} {cons : List P} {m m' : Heap P} {bc : Bc P}
    (h : Linked n pl dtype cons m bc m') :
    ∃ j ≤ cons.length, (m.after n []).Grants j ∧
      (j < cons.length → m.fails (m.calls + n + j) = true) ∧
      m'.rest.ltab = hookLinks bc.channel.c ((cons.zip bc.tag).take j)
        (drawTags ptag m.rest.ltab cons).2 := by
  have hlength : (cons.zip bc.tag).length = cons.length := by
    simp [h.1, length_drawTags]
  obtain ⟨j, hj, hgrants, hlast, hrest⟩ :=
    linkInsert_eq bc.channel.c (cons.zip bc.tag) (tagged n pl dtype cons m)
  rw [hlength] at hj hlast
  exact ⟨j, hj, hgrants, hlast, by rw [h.2, hrest]; rfl⟩

/-- **Every consumer has its link exactly when none was refused.** -/
theorem Linked.all_iff {n pl dtype : ℕ} {cons : List P} {m m' : Heap P} {bc : Bc P}
    (h : Linked n pl dtype cons m bc m') (hdrawn : Drawn m.rest.ltab) :
    AllOrNothing cons m (some bc, m') ↔ (m.after n []).Grants cons.length := by
  obtain ⟨hnodup, hnew⟩ := drawTags_new m.rest.ltab cons
  rw [← h.1] at hnodup hnew
  have hlength : bc.tag.length = cons.length := by rw [h.1, length_drawTags]
  obtain ⟨j, hj, hgrants, hlast, hltab⟩ := h.exists_rest
  have hzip : (cons.zip bc.tag).length = cons.length := by simp [hlength]
  constructor
  · rintro ⟨-, hlinks⟩
    rcases hj.lt_or_eq with hlt | rfl
    · -- the link that was refused is neither among the old ones nor among those inserted
      have hget : (cons.zip bc.tag)[j]? = some (cons.zip bc.tag)[j] :=
        List.getElem?_eq_getElem (hzip ▸ hlt)
      have hx : (cons.zip bc.tag)[j] ∈ cons.zip bc.tag := List.mem_of_getElem? hget
      obtain ⟨l, hl, htag⟩ := hlinks _ hx
      rw [hltab, mem_hookLinks, links_eq_of_drawTags fun _ => rfl, htag] at hl
      rcases hl with hold | ⟨-, hmem⟩
      · have := hdrawn _ l hold
        have := (hnew _ hx).1
        omega
      · obtain ⟨i, hi, hget'⟩ := List.mem_take_iff_getElem.mp hmem
        have := (hnodup.getElem_inj_iff).mp hget'
        omega
    · exact hgrants
  · intro hall
    have hfull : j = cons.length := by
      by_contra hne
      have hlt : j < cons.length := by omega
      have := hall j hlt
      rw [Mem.after_fails, Mem.after_calls, hlast hlt] at this
      exact Bool.noConfusion this
    refine ⟨hlength, fun x hx => ⟨⟨x.2, bc.channel.c⟩, ?_, rfl⟩⟩
    rw [hltab, hfull, ← hzip, List.take_length, mem_hookLinks]
    exact .inr ⟨rfl, hx⟩

theorem Linked.drawn {n pl dtype : ℕ} {cons : List P} {m m' : Heap P} {bc : Bc P}
    (h : Linked n pl dtype cons m bc m') (hdrawn : Drawn m.rest.ltab) : Drawn m'.rest.ltab := by
  obtain ⟨-, hnew⟩ := drawTags_new m.rest.ltab cons
  rw [← h.1] at hnew
  obtain ⟨j, -, -, -, hltab⟩ := h.exists_rest
  intro r l hl
  rw [hltab] at hl ⊢
  rw [mem_hookLinks, links_eq_of_drawTags fun _ => rfl] at hl
  rw [sinkTag_hookLinks]
  rcases hl with hold | ⟨-, hmem⟩
  · exact (hdrawn r l hold).trans_le (sinkTag_le_drawTags _ _ r)
  · exact (hnew _ (List.mem_of_mem_take hmem)).2

/-! ## Runs -/

/-- `bc_src_create`, past the checks of its arguments: its tags. -/
def bcSrcCreate (pl : ℕ) (prod : List P) (dtype : ℕ) : StateM (Heap P) (Option (List ℕ)) :=
  ifNull malloc (pure ()) fun bc =>
  ifNull malloc (free bc) fun tags =>
  ifNull malloc (do free tags; free bc) fun _ => do
    dtypeRef dtype
    plistRef pl
    let tag ← gtags prod
    pure (some tag)

inductive TableAct (P : Type)
  | sinkCreate (role : Role) (pl : ℕ) (cons : List P) (dtype : ℕ)
  | srcCreate (pl : ℕ) (prod : List P) (dtype : ℕ)
  /-- A service thread removes the links with a tag. -/
  | unlink (rank : P) (tag : ℕ)

/-- A call of the computation thread, or a removal. -/
def step (m : Heap P) : TableAct P → Option (Heap P)
  | .sinkCreate role pl cons dtype =>
    (ifaceC role).map fun c => (bcSinkCreate c pl cons dtype m).2
  | .srcCreate pl prod dtype => some (bcSrcCreate pl prod dtype m).2
  | .unlink rank tag => some { m with rest := { m.rest with
      ltab := Function.update m.rest.ltab rank { m.rest.ltab rank with
        links := (m.rest.ltab rank).links.filter (·.tag ≠ tag) } } }

/-- `__bc_ltab_create`. -/
def Initial (m : Heap P) : Prop := ∀ r, m.rest.ltab r = ⟨[], 0, 0⟩

theorem drawn_bcSinkCreate {role : Role} {c : Constructor P} (hc : ifaceC role = some c) (pl : ℕ)
    (cons : List P) (dtype : ℕ) {m : Heap P} (hdrawn : Drawn m.rest.ltab) :
    Drawn (bcSinkCreate c pl cons dtype m).2.rest.ltab := by
  have htakes := takes_bcSinkCreate hc pl cons dtype
  rcases m.grants_or_failsAt (sinkTakes role cons.length) with hm | ⟨j, hj, hm⟩
  · obtain ⟨bc, m', hcall, hlinked⟩ := htakes.granted m hm
    rw [hcall]
    exact hlinked.drawn hdrawn
  · obtain ⟨new, hcall, -⟩ := htakes.refused m j hj hm
    rw [hcall]
    exact hdrawn

/-- A source that got its `bc_chan_t` has drawn its tags. -/
def Sourced (prod : List P) (m : Heap P) (tag : List ℕ) (m' : Heap P) : Prop :=
  tag = (drawTags gtag m.rest.ltab prod).1 ∧
    m'.rest.ltab = (drawTags gtag m.rest.ltab prod).2

theorem Sourced.after {k : ℕ} {prod : List P} {m m' : Heap P} {tag : List ℕ}
    (h : Sourced prod (m.after k []) tag m') : Sourced prod m tag m' := h

theorem takes_bcSrcCreate (pl : ℕ) (prod : List P) (dtype : ℕ) :
    Takes [] (1 + (1 + 1)) (bcSrcCreate pl prod dtype) (Sourced prod) := by
  refine takes_malloc.ifNull (Q := fun _ => Sourced prod) frees_nil (fun bc => ?_)
    fun m _ tag m' _ h => (h.after : Sourced prod m tag m')
  refine takes_malloc.ifNull (Q := fun _ => Sourced prod) (frees_free bc) (fun tags => ?_)
    fun m _ tag m' _ h => (h.after : Sourced prod m tag m')
  refine takes_malloc.ifNull_last (frees_pair tags bc) ?_
  rintro m channel m' ⟨rfl, -⟩
  exact ⟨_, _, rfl, rfl, rfl⟩

theorem sinkTag_drawTags_gtag (ltab : P → Hook) (prod : List P) (r : P) :
    ((drawTags gtag ltab prod).2 r).sinkTag = (ltab r).sinkTag := by
  induction prod generalizing ltab with
  | nil => rfl
  | cons rank prod ih =>
    refine (ih _).trans ?_
    rcases eq_or_ne r rank with rfl | hne
    · rw [Function.update_self]
    · rw [Function.update_of_ne hne]

theorem drawn_bcSrcCreate (pl : ℕ) (prod : List P) (dtype : ℕ) {m : Heap P}
    (hdrawn : Drawn m.rest.ltab) : Drawn (bcSrcCreate pl prod dtype m).2.rest.ltab := by
  rcases m.grants_or_failsAt (1 + (1 + 1)) with hm | ⟨j, hj, hm⟩
  · obtain ⟨tag, m', hcall, -, hltab⟩ := (takes_bcSrcCreate pl prod dtype).granted m hm
    rw [hcall, hltab]
    intro r l hl
    rw [links_eq_of_drawTags fun _ => rfl] at hl
    rw [sinkTag_drawTags_gtag]
    exact hdrawn r l hl
  · obtain ⟨new, hcall, -⟩ := (takes_bcSrcCreate pl prod dtype).refused m j hj hm
    rw [hcall]
    exact hdrawn

theorem drawn_of_reaches {m₀ m : Heap P} (hinit : Initial m₀) (h : Reaches step m₀ m) :
    Drawn m.rest.ltab := by
  refine h.invariant (P := fun m => Drawn m.rest.ltab) (fun m a m' hm ha => ?_) ?_
  · cases a with
    | sinkCreate role pl cons dtype =>
      obtain ⟨c, hc, rfl⟩ := Option.map_eq_some_iff.mp ha
      exact drawn_bcSinkCreate hc pl cons dtype hm
    | srcCreate pl prod dtype =>
      obtain rfl := Option.some.inj ha
      exact drawn_bcSrcCreate pl prod dtype hm
    | unlink rank tag =>
      obtain rfl := Option.some.inj ha
      intro r l hl
      rcases eq_or_ne r rank with rfl | hne
      · simp only [Function.update_self] at hl ⊢
        exact hm r l (List.mem_of_mem_filter hl)
      · simp only [Function.update_of_ne hne] at hl ⊢
        exact hm r l hl
  · intro r l hl
    rw [hinit r] at hl
    exact absurd hl List.not_mem_nil

/-- A process whose hooks are empty, and the calls of whose allocator fail as `fails` says; its
data types and lists are custom ones, with one reference each. -/
def fresh (fails : ℕ → Bool) : Heap P :=
  ⟨fails, 0, [], ⟨fun _ => ⟨[], 0, 0⟩, fun _ => ⟨true, 1⟩, fun _ => ⟨true, 1⟩⟩⟩

end Sink

end Libdsys.Alloc
