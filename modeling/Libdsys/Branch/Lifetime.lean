import Mathlib.Algebra.BigOperators.Fin
import Mathlib.Algebra.Order.BigOperators.Group.Finset
import Libdsys.Machinery.Runs
import Libdsys.Ltab.Tags
import Libdsys.Branch.Iface

/-!
# Branch/Lifetime — who releases a channel

The record of a channel is shared by the `bc_chan_t` of the computation thread and by one link for
each consumer.  A link leaves the table through `__bc_link_destroy` or `__bc_ltab_destroy`, which
call a destructor on its channel; the `bc_chan_t` is not counted, and neither are the links of a
pipe.

* `Process.orderly` — what a process has to keep to for this to come out right.
* `Process.Inv` — a channel that is not released counts its links; one that is has no reference.
* `channel_released_once` — an orderly process releases each channel once, after its last
  reference is gone, and never reads it again.
* `pipe_released_early` — a pipe whose consumer leaves first.
-/

open Machinery

namespace Libdsys

/-! ## The process -/

/-- A channel and the type of its queue. -/
structure Sink where
  channel : Channel
  qtype : Qtype
  /-- By which type the queue was destroyed, for each time the channel was released. -/
  released : List Qtype
  /-- There is a `bc_chan_t` for it. -/
  handle : Bool
deriving Repr, DecidableEq

/-- The sink side of a process among `n`. -/
structure Process (n : ℕ) where
  proc : Proc (Fin n)
  sinks : List Sink
  /-- The cached links of the service threads, and their tags. -/
  clink : Fin n → Option Link
  ctag : Fin n → ℕ
  /-- The hooks `__bc_ltab_destroy` has still to empty, once it is called. -/
  closing : Option (List (Fin n))

inductive ProcessAct (n : ℕ)
  /-- `bc_sink_create` up to `__bc_link_insert`; `rc` is what the memory of the channel holds. -/
  | sinkCreate (role : Role) (cons : List (Fin n)) (rc : ℕ)
  /-- One insertion of `__bc_link_insert`. -/
  | linkInsert
  /-- `bc_put` or `bc_commit`. -/
  | put (c : ℕ)
  /-- `bc_chan_destroy` of a sink. -/
  | chanDestroy (c : ℕ)
  /-- A GET or COND_GET is served. -/
  | get (rank : Fin n) (tag : ℕ)
  /-- A KILL is served. -/
  | kill (rank : Fin n) (tag : ℕ)
  /-- `bc_final` up to `__bc_ltab_destroy`: the service threads are gone. -/
  | final
  /-- Once round the loops of `__bc_ltab_destroy`. -/
  | ltabDestroy

/-- `__bc_link_search`. -/
def linkSearch (ls : List Link) (tag : ℕ) : Option Link := ls.find? (·.tag = tag)

/-- The loop of `__bc_link_destroy` through the links behind `temp`: the link before the one to go,
that one, and the list without it. -/
def unlinkBehind (temp : Link) (tag : ℕ) : List Link → Option (Link × Link × List Link)
  | [] => none
  | dummy :: ls =>
    if dummy.tag = tag then some (temp, dummy, temp :: ls)
    else (unlinkBehind dummy tag ls).map fun (before, link, rest) => (before, link, temp :: rest)

/-- `__bc_link_destroy`: the link whose channel's destructor is taken, the link that goes, and the
list without it. -/
def linkDestroy (tag : ℕ) : List Link → Option (Link × Link × List Link)
  | [] => none
  | root :: ls => if root.tag = tag then some (root, root, ls) else unlinkBehind root tag ls

namespace Process

variable {n : ℕ}

/-- No channel yet. -/
def start (n : ℕ) : Process n := ⟨.start, [], fun _ => none, fun _ => 9999, none⟩

/-- The links inserted for `rank`. -/
def links (s : Process n) (rank : Fin n) : List Link := (s.proc.ltab rank).links

def setLinks (s : Process n) (rank : Fin n) (ls : List Link) : Process n :=
  { s with proc := { s.proc with
      ltab := Function.update s.proc.ltab rank { s.proc.ltab rank with links := ls } } }

/-- The computation thread is between two calls. -/
def idle (s : Process n) : Bool :=
  s.proc.inserting.isEmpty && (s.closing = none || s.closing = some [])

/-- `bc_iface[role].d(c)`. -/
def destroyChannel (s : Process n) (role : Role) (c : ℕ) : Option (Process n) := do
  let sink ← s.sinks[c]?
  let d ← role.d
  let (channel, queue) := d sink.channel
  return { s with
    sinks := s.sinks.set c { sink with channel, released := sink.released ++ queue.toList } }

/-- The role of channel `c`. -/
def role? (s : Process n) (c : ℕ) : Option Role := s.sinks[c]?.map (·.channel.role)

/-- The list of `rank` without a link, whose channel is given to a destructor of channel `by'`. -/
def drop (s : Process n) (rank : Fin n) (by' link : Link) (rest : List Link) :
    Option (Process n) := do
  let role ← s.role? by'.channel
  (s.setLinks rank rest).destroyChannel role link.channel

/-- The link a GET is served from: the cached one, or the one that is found. -/
def serviceLink (s : Process n) (rank : Fin n) (tag : ℕ) : Option Link :=
  if s.ctag rank = tag then s.clink rank <|> linkSearch (s.links rank) tag
  else linkSearch (s.links rank) tag

/-- One step: the channels whose records it reads, and the state after it. -/
def exec (s : Process n) : ProcessAct n → Option (List ℕ × Process n)
  | .sinkCreate role cons rc => do
    guard (s.idle ∧ s.closing = none ∧ cons.length < 2 ^ 31 ∧ rc < 2 ^ 32)
    let (role, qtype) ← role.c
    let rc := if role.counts then cons.length else rc
    return ([], { s with
      proc := bcSinkCreate s.proc cons
      sinks := s.sinks ++ [⟨⟨role, rc⟩, qtype, [], true⟩] })
  | .linkInsert =>
    match s.proc.inserting with
    | [] => none
    | (rank, link) :: rest =>
      some ([link.channel], { s with proc := Libdsys.linkInsert s.proc rank link rest })
  | .put c => do
    let sink ← s.sinks[c]?
    guard (s.idle ∧ sink.handle)
    return ([c], s)
  | .chanDestroy c => do
    let sink ← s.sinks[c]?
    guard (s.idle ∧ sink.handle)
    return ([c], { s with sinks := s.sinks.set c { sink with handle := false } })
  | .get rank tag => do
    guard (s.closing = none)
    let link ← s.serviceLink rank tag
    return ([link.channel], { s with
      clink := Function.update s.clink rank (some link)
      ctag := Function.update s.ctag rank tag })
  | .kill rank tag => do
    guard (s.closing = none)
    let (by', link, rest) ← linkDestroy tag (s.links rank)
    let s ← s.drop rank by' link rest
    return ([by'.channel, link.channel], { s with clink := Function.update s.clink rank none })
  | .final =>
    if s.idle ∧ s.closing = none then some ([], { s with closing := some (List.finRange n) })
    else none
  | .ltabDestroy =>
    match s.closing with
    | some (rank :: ranks) =>
      match s.links rank with
      | [] => some ([], { s with closing := some ranks })
      | link :: rest => do
        let s ← s.drop rank link link rest
        return ([link.channel], s)
    | _ => none

/-- The step. -/
def step (s : Process n) (a : ProcessAct n) : Option (Process n) := (s.exec a).map Prod.snd

/-- The channels whose records a step reads. -/
def reads (s : Process n) (a : ProcessAct n) : List ℕ := ((s.exec a).map Prod.fst).getD []

/-! ## What a process has to keep to -/

/-- The links to channel `c`, those still to be inserted too. -/
def refs (s : Process n) (c : ℕ) : ℕ :=
  s.proc.inserting.countP (·.2.channel = c) + ∑ rank, (s.links rank).countP (·.channel = c)

/-- **The last link goes after the `bc_chan_t`**; where the destructor is that of another channel's
role, it is of the same kind or the count is one, and for the last link it destroys the queue by
the type the queue has. -/
def mayDrop (s : Process n) (by' link : Link) : Bool :=
  match s.sinks[link.channel]?, s.role? by'.channel with
  | some sink, some role =>
    (s.refs link.channel = 1 → sink.handle = false ∧ role.qtype? = some sink.qtype) &&
      (role.counts = sink.channel.role.counts || sink.channel.rc = 1)
  | _, _ => true

/-- **The steps of an orderly process.**  A sink has a consumer, and a pipe only one. -/
def orderly (s : Process n) : ProcessAct n → Bool
  | .sinkCreate role cons _ => !cons.isEmpty && (role.counts || cons.length = 1)
  | .kill rank tag =>
    match linkDestroy tag (s.links rank) with
    | some (by', link, _) => s.mayDrop by' link
    | none => true
  | .ltabDestroy =>
    match s.closing with
    | some (rank :: _) =>
      match s.links rank with
      | link :: _ => s.mayDrop link link
      | [] => true
    | _ => true
  | _ => true

variable {s s' : Process n} {rank : Fin n} {tag c : ℕ} {ls rest : List Link} {by' link : Link}
  {cons : List (Fin n)} {inserting : List (Fin n × Link)}

/-! ## References -/

theorem links_setLinks (s : Process n) (rank : Fin n) (ls : List Link) (r : Fin n) :
    (s.setLinks rank ls).links r = if r = rank then ls else s.links r := by
  rcases eq_or_ne r rank with rfl | hne
  · simp [links, setLinks]
  · simp [links, setLinks, hne]

theorem refs_setLinks (s : Process n) (rank : Fin n) (ls : List Link) (c : ℕ) :
    (s.setLinks rank ls).refs c + (s.links rank).countP (·.channel = c) =
      s.refs c + ls.countP (·.channel = c) := by
  have hrest : ∑ r ∈ Finset.univ.erase rank, ((s.setLinks rank ls).links r).countP (·.channel = c) =
      ∑ r ∈ Finset.univ.erase rank, (s.links r).countP (·.channel = c) := by
    refine Finset.sum_congr rfl fun r hr => ?_
    rw [links_setLinks, if_neg (Finset.ne_of_mem_erase hr)]
  have hself : (s.setLinks rank ls).links rank = ls := by rw [links_setLinks, if_pos rfl]
  have hins : (s.setLinks rank ls).proc.inserting = s.proc.inserting := rfl
  rw [refs, refs, ← Finset.add_sum_erase _ _ (Finset.mem_univ rank), hrest, hself, hins,
    ← Finset.add_sum_erase _ _ (Finset.mem_univ rank)]
  omega

/-- Without a link, its channel has one reference less, and the others have as many as before. -/
theorem refs_setLinks_of_perm (h : (s.links rank).Perm (link :: rest)) (c : ℕ) :
    (s.setLinks rank rest).refs c + (if link.channel = c then 1 else 0) = s.refs c := by
  have hrefs := s.refs_setLinks rank rest c
  rw [h.countP_eq, List.countP_cons] at hrefs
  simp only [decide_eq_true_eq] at hrefs
  omega

/-- A new sink has a link for each of its consumers. -/
theorem refs_sinkCreate (hproc : s'.proc = bcSinkCreate s.proc cons)
    (hins : s.proc.inserting = []) (c : ℕ) :
    s'.refs c = (if c = s.proc.sinks.length then cons.length else 0) + s.refs c := by
  have hlinks rank : s'.links rank = s.links rank := by
    rw [links, hproc]
    exact links_eq_of_drawTags (fun _ => rfl) rank
  have hnew : ∀ x ∈ s'.proc.inserting, x.2.channel = s.proc.sinks.length := by
    intro x hx
    rw [hproc] at hx
    obtain ⟨t, -, ht⟩ := List.mem_map.mp (List.of_mem_zip hx).2
    rw [← ht]
  have hlength : s'.proc.inserting.length = cons.length := by
    rw [hproc]
    simp [bcSinkCreate, length_drawTags]
  rw [refs, refs, hins, List.countP_nil, Nat.zero_add]
  refine congrArg₂ (· + ·) ?_ (Finset.sum_congr rfl fun rank _ => by rw [hlinks])
  split
  · next hc =>
    rw [← hlength]
    exact List.countP_eq_length.mpr fun x hx => by simp [hnew x hx, hc]
  · next hc => exact List.countP_eq_zero.mpr fun x hx => by simp [hnew x hx, Ne.symm hc]

/-- An insertion neither makes a link nor drops one. -/
theorem refs_linkInsert (hins : s.proc.inserting = (rank, link) :: inserting)
    (hproc : s'.proc = Libdsys.linkInsert s.proc rank link inserting) (c : ℕ) :
    s'.refs c = s.refs c := by
  have hrefs := s.refs_setLinks rank (link :: s.links rank) c
  have hsum : ∀ r, s'.links r = (s.setLinks rank (link :: s.links rank)).links r := fun r => by
    rw [links, hproc]
    rfl
  simp only [refs, hproc, List.countP_cons, setLinks, hins, Libdsys.linkInsert, hsum] at hrefs ⊢
  omega

theorem refs_pos_of_mem (h : link ∈ s.links rank) : 0 < s.refs link.channel := by
  have hone : 0 < (s.links rank).countP (·.channel = link.channel) :=
    List.countP_pos_iff.mpr ⟨link, h, by simp⟩
  have hle : (s.links rank).countP (·.channel = link.channel) ≤
      ∑ r, (s.links r).countP (·.channel = link.channel) :=
    Finset.single_le_sum (f := fun r => (s.links r).countP (·.channel = link.channel))
      (fun _ _ => Nat.zero_le _) (Finset.mem_univ rank)
  rw [refs]
  omega

theorem refs_pos_of_inserting (h : (rank, link) ∈ s.proc.inserting) : 0 < s.refs link.channel := by
  have hone : 0 < s.proc.inserting.countP (·.2.channel = link.channel) :=
    List.countP_pos_iff.mpr ⟨_, h, by simp⟩
  rw [refs]
  omega

/-! ## Links that go -/

theorem unlinkBehind_eq_some {temp : Link} (h : unlinkBehind temp tag ls = some (by', link, rest)) :
    by' ∈ temp :: ls ∧ (temp :: ls).Perm (link :: rest) := by
  induction ls generalizing temp rest with
  | nil => cases h
  | cons dummy ls ih =>
    rw [unlinkBehind] at h
    split at h
    · obtain ⟨rfl, rfl, rfl⟩ : temp = by' ∧ dummy = link ∧ temp :: ls = rest := by simpa using h
      exact ⟨List.mem_cons_self, List.Perm.swap _ _ _⟩
    · obtain ⟨⟨b, l, rest'⟩, hbehind, heq⟩ := Option.map_eq_some_iff.mp h
      obtain ⟨rfl, rfl, rfl⟩ : b = by' ∧ l = link ∧ temp :: rest' = rest := by simpa using heq
      obtain ⟨hmem, hperm⟩ := ih hbehind
      exact ⟨List.mem_cons_of_mem _ hmem, (hperm.cons temp).trans (List.Perm.swap _ _ _)⟩

/-- What `__bc_link_destroy` takes from a list is a link of it. -/
theorem linkDestroy_eq_some (h : linkDestroy tag ls = some (by', link, rest)) :
    by' ∈ ls ∧ ls.Perm (link :: rest) := by
  cases ls with
  | nil => cases h
  | cons root ls =>
    rw [linkDestroy] at h
    split at h
    · obtain ⟨rfl, rfl, rfl⟩ : root = by' ∧ root = link ∧ ls = rest := by simpa using h
      exact ⟨List.mem_cons_self, .refl _⟩
    · exact unlinkBehind_eq_some h

end Process

/-! ## What is known of a channel -/

/-- A channel with `k` links: one that has none is released. -/
structure Sink.Ok (sink : Sink) (k : ℕ) : Prop where
  role : ∃ d, sink.channel.role.d = some d
  lt : sink.channel.rc < 2 ^ 32
  held : 0 < k → sink.released = []
  counted : 0 < k → sink.channel.role.counts = true → sink.channel.rc = k
  single : 0 < k → sink.channel.role.counts = false → k = 1
  gone : k = 0 → sink.released = [sink.qtype] ∧ sink.handle = false

namespace Sink

/-- The channel after a destructor. -/
def dropped (sink : Sink) (d : Destructor) : Sink :=
  { sink with
    channel := (d sink.channel).1
    released := sink.released ++ (d sink.channel).2.toList }

variable {sink : Sink} {k : ℕ} {role : Role} {d : Destructor}

/-- A destructor releases a channel unless it counts more than one link. -/
theorem dropped_eq (hd : role.d = some d) (hlt : sink.channel.rc < 2 ^ 32) :
    ∃ qtype, role.qtype? = some qtype ∧ ∃ rc < 2 ^ 32,
      (role.counts = true → 0 < sink.channel.rc → rc = sink.channel.rc - 1) ∧
      sink.dropped d = { sink with
        channel := { sink.channel with rc }
        released := sink.released ++
          if role.counts = false ∨ sink.channel.rc = 1 then [qtype] else [] } := by
  obtain ⟨qtype, hqtype, rfl⟩ := Role.d_eq hd
  refine ⟨qtype, hqtype, ?_⟩
  cases hrole : role.counts with
  | true =>
    refine ⟨if sink.channel.rc = 0 then 2 ^ 32 - 1 else sink.channel.rc - 1, ?_, ?_, ?_⟩
    · split <;> omega
    · exact fun _ hpos => if_neg hpos.ne'
    · by_cases hone : sink.channel.rc = 1 <;> simp [dropped, countDown_eq qtype hlt, hone]
  | false => exact ⟨sink.channel.rc, hlt, nofun, by simp [dropped]⟩

/-- **When a destructor does right by a channel.** -/
theorem Ok.dropped_iff (h : sink.Ok k) (hk : 0 < k) (hd : role.d = some d) :
    (sink.dropped d).Ok (k - 1) ↔
      (k = 1 → sink.handle = false ∧ role.qtype? = some sink.qtype) ∧
      (role.counts = sink.channel.role.counts ∨ sink.channel.rc = 1) := by
  obtain ⟨qtype, hqtype, rc, hrc, hdown, heq⟩ := dropped_eq hd h.lt
  have hheld := h.held hk
  rw [heq]
  constructor
  · intro hok
    refine ⟨fun hone => ?_, ?_⟩
    · obtain ⟨hreleased, hhandle⟩ := hok.gone (by omega)
      have hown : (if role.counts = false ∨ sink.channel.rc = 1 then [qtype] else []) =
          [sink.qtype] := by simpa [hheld] using hreleased
      have hsame : qtype = sink.qtype := by
        split at hown
        · exact List.singleton_injective hown
        · cases hown
      exact ⟨hhandle, hsame ▸ hqtype⟩
    by_contra hno
    obtain ⟨hkind, hone⟩ := not_or.mp hno
    cases hown : sink.channel.role.counts with
    | true =>
      -- released, while other links refer to it
      have hrole : role.counts = false := by simpa [hown] using hkind
      have hcount := h.counted hk hown
      simpa [hrole, hheld] using hok.held (by omega)
    | false =>
      -- not released, though no link refers to it
      have hrole : role.counts = true := by simpa [hown] using hkind
      have hsingle := h.single hk hown
      simpa [hrole, hone, hheld] using (hok.gone (by omega)).1
  · rintro ⟨hlast, hkind⟩
    have hmore (hk' : 0 < k - 1) : role.counts = true ∧ sink.channel.rc = k := by
      cases hown : sink.channel.role.counts with
      | true =>
        have hcount := h.counted hk hown
        exact ⟨(hkind.resolve_right (by omega)).trans hown, hcount⟩
      | false =>
        have hsingle := h.single hk hown
        omega
    refine ⟨h.role, hrc, fun hk' => ?_, fun hk' _ => ?_, fun hk' hown => ?_, fun hzero => ⟨?_, ?_⟩⟩
    · obtain ⟨hrole, hcount⟩ := hmore hk'
      have hne : sink.channel.rc ≠ 1 := by omega
      simp [hrole, hne, hheld]
    · obtain ⟨hrole, hcount⟩ := hmore hk'
      rw [hdown hrole (by omega), hcount]
    · have hsingle := h.single hk hown
      omega
    · have hrel : role.counts = false ∨ sink.channel.rc = 1 := by
        cases hown : sink.channel.role.counts with
        | true => exact .inr ((h.counted hk hown).trans (by omega))
        | false => exact hkind.imp_left (·.trans hown)
      have hsame : qtype = sink.qtype :=
        Option.some.inj (hqtype.symm.trans (hlast (by omega)).2)
      simp [hrel, hheld, hsame]
    · exact (hlast (by omega)).1

end Sink

namespace Process

variable {n : ℕ} {s s' : Process n} {rank : Fin n} {tag c : ℕ} {ls rest : List Link}
  {by' link : Link} {cons : List (Fin n)}

/-- **The invariant.** -/
structure Inv (s : Process n) : Prop where
  length : s.proc.sinks.length = s.sinks.length
  bound : ∀ c, 0 < s.refs c → c < s.sinks.length
  sinks : ∀ (c : ℕ) (sink : Sink), s.sinks[c]? = some sink → sink.Ok (s.refs c)
  cached : s.closing = none → ∀ rank link, s.clink rank = some link → link ∈ s.links rank
  closed : ∀ ranks, s.closing = some ranks →
    s.proc.inserting = [] ∧ ∀ rank ∉ ranks, s.links rank = []

theorem inserting_of_idle (hidle : s.idle = true) : s.proc.inserting = [] := by
  simp only [idle, Bool.and_eq_true, List.isEmpty_iff] at hidle
  exact hidle.1

theorem inv_start : (start n).Inv where
  length := rfl
  bound c h := by simp [refs, start, links, Proc.start] at h
  sinks c sink h := by simp [start] at h
  cached _ rank link h := by simp [start] at h
  closed ranks h := by simp [start] at h

namespace Inv

/-- A channel with a link is there, and not released. -/
theorem exists_sink (h : s.Inv) (hc : 0 < s.refs c) :
    ∃ sink, s.sinks[c]? = some sink ∧ sink.released = [] :=
  ⟨_, List.getElem?_eq_getElem (h.bound c hc),
    (h.sinks c _ (List.getElem?_eq_getElem (h.bound c hc))).held hc⟩

/-- **A link goes**: its channel is released if it was the last reference, and counts one less if
it was not. -/
theorem drop (h : s.Inv) (hby : by' ∈ s.links rank)
    (hperm : (s.links rank).Perm (link :: rest)) (hmay : s.mayDrop by' link = true)
    (hs : s.drop rank by' link rest = some s') :
    s'.proc = (s.setLinks rank rest).proc ∧ s'.clink = s.clink ∧ s'.closing = s.closing ∧
      s'.sinks.length = s.sinks.length ∧
      (∀ (c : ℕ) (sink : Sink), s'.sinks[c]? = some sink → sink.Ok (s'.refs c)) := by
  have hlink : 0 < s.refs link.channel := refs_pos_of_mem (hperm.mem_iff.mpr List.mem_cons_self)
  obtain ⟨sink, hsink, -⟩ := h.exists_sink hlink
  obtain ⟨sinkBy, hsinkBy, -⟩ := h.exists_sink (refs_pos_of_mem hby)
  have hrole : s.role? by'.channel = some sinkBy.channel.role := by rw [role?, hsinkBy]; rfl
  obtain ⟨d, hd⟩ := (h.sinks _ _ hsinkBy).role
  have hsink' : (s.setLinks rank rest).sinks[link.channel]? = some sink := hsink
  simp only [Process.drop, destroyChannel, hrole, hsink', hd, Option.bind_eq_bind,
    Option.bind_some, Option.pure_def, Option.some.injEq] at hs
  subst hs
  refine ⟨rfl, rfl, rfl, List.length_set, fun c sink' hc => ?_⟩
  have hrefs := refs_setLinks_of_perm hperm c
  change sink'.Ok ((s.setLinks rank rest).refs c)
  change (s.sinks.set link.channel (sink.dropped d))[c]? = some sink' at hc
  simp only [mayDrop, hsink, hrole, Bool.and_eq_true, Bool.or_eq_true, decide_eq_true_eq] at hmay
  rcases eq_or_ne link.channel c with rfl | hne
  · rw [List.getElem?_set_self (h.bound _ hlink)] at hc
    obtain rfl := Option.some.inj hc
    rw [if_pos rfl] at hrefs
    have heq : (s.setLinks rank rest).refs link.channel = s.refs link.channel - 1 := by omega
    rw [heq]
    exact ((h.sinks _ _ hsink).dropped_iff hlink hd).mpr hmay
  · rw [List.getElem?_set_ne hne] at hc
    rw [if_neg hne, Nat.add_zero] at hrefs
    exact hrefs ▸ h.sinks c sink' hc

/-- A channel there is a `bc_chan_t` for is not released. -/
theorem released_of_handle (h : s.Inv) {sink : Sink} (hc : s.sinks[c]? = some sink)
    (hhandle : sink.handle = true) : sink.released = [] := by
  have hok := h.sinks c sink hc
  rcases Nat.eq_zero_or_pos (s.refs c) with hzero | hpos
  · exact absurd (hok.gone hzero).2 (by simp [hhandle])
  · exact hok.held hpos

/-- The link a GET is served from is in the table. -/
theorem serviceLink_mem (h : s.Inv) (hopen : s.closing = none)
    (hlink : s.serviceLink rank tag = some link) : link ∈ s.links rank := by
  have hsearch (hfound : linkSearch (s.links rank) tag = some link) : link ∈ s.links rank :=
    List.mem_of_find?_eq_some hfound
  rw [serviceLink] at hlink
  split at hlink
  · cases hcached : s.clink rank with
    | none =>
      rw [hcached] at hlink
      exact hsearch hlink
    | some cached =>
      rw [hcached] at hlink
      obtain rfl : cached = link := Option.some.inj hlink
      exact h.cached hopen rank cached hcached
  · exact hsearch hlink

/-- A sink is created: its links are counted, where they are counted. -/
theorem sinkCreate (h : s.Inv) {role role' : Role} {qtype : Qtype} {rc : ℕ}
    (hins : s.proc.inserting = []) (hopen : s.closing = none)
    (hlt : cons.length < 2 ^ 31 ∧ rc < 2 ^ 32)
    (hc : role.c = some (role', qtype)) (hcons : 0 < cons.length)
    (hpipe : role.counts = false → cons.length = 1)
    (hproc : s'.proc = bcSinkCreate s.proc cons)
    (hsinks : s'.sinks =
      s.sinks ++ [⟨⟨role', if role'.counts then cons.length else rc⟩, qtype, [], true⟩])
    (hclink : s'.clink = s.clink) (hclosing : s'.closing = s.closing) : s'.Inv := by
  have hrefs := refs_sinkCreate hproc hins
  have hold c (hc : c ≠ s.sinks.length) : s'.refs c = s.refs c := by
    rw [hrefs, if_neg (by rwa [h.length]), Nat.zero_add]
  have hnone : s.refs s.sinks.length = 0 :=
    Nat.eq_zero_of_not_pos fun hpos => absurd (h.bound _ hpos) (lt_irrefl _)
  have hnew : s'.refs s.sinks.length = cons.length := by
    rw [hrefs, if_pos h.length.symm, hnone, Nat.add_zero]
  have hlength : s'.sinks.length = s.sinks.length + 1 := by rw [hsinks, List.length_append]; rfl
  have hlinks rank : s'.links rank = s.links rank := by
    rw [links, hproc]
    exact links_eq_of_drawTags (fun _ => rfl) rank
  refine ⟨?_, fun c hpos => ?_, fun c sink hsink => ?_, fun _ rank link hlink => ?_,
    fun ranks hranks => ?_⟩
  · rw [hproc, hlength, ← h.length]
    exact List.length_append
  · rcases eq_or_ne c s.sinks.length with rfl | hne
    · omega
    · have := h.bound c (hold c hne ▸ hpos)
      omega
  · rcases eq_or_ne c s.sinks.length with rfl | hne
    · rw [hsinks, List.getElem?_concat_length] at hsink
      obtain rfl := Option.some.inj hsink
      rw [hnew]
      refine ⟨Role.exists_d hc, ?_, fun _ => rfl, fun _ hcounts => if_pos hcounts,
        fun _ hno => hpipe (Role.counts_of_c hc ▸ hno), by omega⟩
      change (if role'.counts then cons.length else rc) < 2 ^ 32
      split <;> omega
    · have hlt : c < s.sinks.length := by
        have := (List.getElem?_eq_some_iff.mp hsink).1
        omega
      rw [hsinks, List.getElem?_append_left hlt] at hsink
      rw [hold c hne]
      exact h.sinks c sink hsink
  · rw [hlinks]
    exact h.cached hopen rank link (hclink ▸ hlink)
  · rw [hclosing, hopen] at hranks
    cases hranks

/-- An insertion. -/
theorem linkInsert (h : s.Inv) {inserting : List (Fin n × Link)}
    (hins : s.proc.inserting = (rank, link) :: inserting)
    (hproc : s'.proc = Libdsys.linkInsert s.proc rank link inserting)
    (hsinks : s'.sinks = s.sinks) (hclink : s'.clink = s.clink)
    (hclosing : s'.closing = s.closing) : s'.Inv := by
  have hrefs := refs_linkInsert hins hproc
  have hopen : s.closing = none := Option.eq_none_iff_forall_not_mem.mpr fun ranks hranks => by
    rw [(h.closed ranks hranks).1] at hins
    cases hins
  refine ⟨?_, fun c hpos => ?_, fun c sink hsink => ?_, fun _ r l hl => ?_, fun ranks hranks => ?_⟩
  · rw [hproc, hsinks]
    exact h.length
  · rw [hsinks]
    exact h.bound c (hrefs c ▸ hpos)
  · rw [hrefs]
    exact h.sinks c sink (hsinks ▸ hsink)
  · have hmem := h.cached hopen r l (hclink ▸ hl)
    rw [links, hproc, linkInsert_ltab]
    split
    · next hr => exact List.mem_cons_of_mem _ (hr ▸ hmem)
    · exact hmem
  · rw [hclosing, hopen] at hranks
    cases hranks

/-- The invariant after a link has gone. -/
theorem of_drop (h : s.Inv) (hby : by' ∈ s.links rank)
    (hperm : (s.links rank).Perm (link :: rest)) (hmay : s.mayDrop by' link = true)
    {t : Process n} (ht : s.drop rank by' link rest = some t)
    (hproc : s'.proc = t.proc) (hsinks : s'.sinks = t.sinks) (hclosing : s'.closing = t.closing)
    (hclink : s.closing = none → s'.clink = Function.update t.clink rank none) : s'.Inv := by
  obtain ⟨hproc', hclink', hclosing', hlength, hok⟩ := h.drop hby hperm hmay ht
  have hlinks r : s'.links r = if r = rank then rest else s.links r := by
    rw [links, hproc, hproc']
    exact links_setLinks s rank rest r
  have hrefs c : s'.refs c = t.refs c := by simp only [refs, links, hproc]
  have hle c : t.refs c ≤ s.refs c := by
    have := refs_setLinks_of_perm hperm c
    have heq : t.refs c = (s.setLinks rank rest).refs c := by simp only [refs, links, hproc']
    omega
  refine ⟨?_, fun c hpos => ?_, fun c sink hsink => ?_, fun hopen r l hl => ?_,
    fun ranks hranks => ?_⟩
  · rw [hproc, hproc', hsinks, hlength]
    exact h.length
  · rw [hsinks, hlength]
    exact h.bound c (lt_of_lt_of_le (hrefs c ▸ hpos) (hle c))
  · rw [hrefs]
    exact hok c sink (hsinks ▸ hsink)
  · have hopen : s.closing = none := by rw [← hclosing', ← hclosing, hopen]
    rw [hclink hopen, hclink'] at hl
    rcases eq_or_ne r rank with rfl | hne
    · simp at hl
    · rw [Function.update_of_ne hne] at hl
      rw [hlinks, if_neg hne]
      exact h.cached hopen r l hl
  · rw [hclosing, hclosing'] at hranks
    obtain ⟨hins, hempty⟩ := h.closed ranks hranks
    refine ⟨by rw [hproc, hproc']; exact hins, fun r hr => ?_⟩
    rw [hlinks]
    split
    · next heq =>
      have hnil := hempty r hr
      rw [heq] at hnil
      rw [hnil] at hperm
      exact absurd hperm.symm.eq_nil (List.cons_ne_nil _ _)
    · exact hempty r hr

/-- A `bc_chan_t` goes: the channel stays for its links. -/
theorem dropHandle (h : s.Inv) {sink : Sink} (hc : s.sinks[c]? = some sink) :
    Inv { s with sinks := s.sinks.set c { sink with handle := false } } := by
  refine ⟨h.length.trans List.length_set.symm,
    fun b hb => (h.bound b hb).trans_eq List.length_set.symm, fun b sink' hb => ?_, h.cached,
    h.closed⟩
  rcases eq_or_ne c b with rfl | hne
  · obtain ⟨hlt, -⟩ := List.getElem?_eq_some_iff.mp hc
    rw [List.getElem?_set_self hlt] at hb
    obtain rfl := Option.some.inj hb
    obtain ⟨hrole, hlt, hheld, hcounted, hsingle, hgone⟩ := h.sinks c sink hc
    exact ⟨hrole, hlt, hheld, hcounted, hsingle, fun hk => ⟨(hgone hk).1, rfl⟩⟩
  · rw [List.getElem?_set_ne hne] at hb
    exact h.sinks b sink' hb

/-- A link of the table is cached. -/
theorem cache (h : s.Inv) (hopen : s.closing = none) (hmem : link ∈ s.links rank) :
    Inv { s with
      clink := Function.update s.clink rank (some link)
      ctag := Function.update s.ctag rank tag } := by
  refine ⟨h.length, h.bound, h.sinks, fun _ r l hl => ?_, h.closed⟩
  rcases eq_or_ne r rank with rfl | hne
  · obtain rfl : link = l := by simpa using hl
    exact hmem
  · exact h.cached hopen r l (by simpa [hne] using hl)

/-- `__bc_ltab_destroy` has come to the lists of `ranks`: those of the others are empty. -/
theorem close (h : s.Inv) {ranks : List (Fin n)} (hins : s.proc.inserting = [])
    (hempty : ∀ r ∉ ranks, s.links r = []) : Inv { s with closing := some ranks } := by
  refine ⟨h.length, h.bound, h.sinks, nofun, fun ranks' hranks => ⟨hins, ?_⟩⟩
  obtain rfl : ranks = ranks' := Option.some.inj hranks
  exact hempty

/-- **What an orderly step keeps, and that it reads no released channel.** -/
theorem exec (h : s.Inv) {a : ProcessAct n} (hok : s.orderly a = true) {reads : List ℕ}
    (hs : s.exec a = some (reads, s')) :
    s'.Inv ∧ ∀ c ∈ reads, ∃ sink, s.sinks[c]? = some sink ∧ sink.released = [] := by
  cases a with
  | sinkCreate role cons rc =>
    simp only [Process.exec, Option.bind_eq_bind, Option.bind_eq_some_iff, Option.guard_eq_some',
      Option.pure_def, Option.some.injEq, Prod.mk.injEq] at hs
    obtain ⟨-, ⟨hidle, hopen, hlt⟩, ⟨role', qtype⟩, hc, rfl, rfl⟩ := hs
    simp only [orderly, Bool.and_eq_true, Bool.not_eq_true', List.isEmpty_eq_false_iff,
      Bool.or_eq_true, decide_eq_true_eq] at hok
    have hpipe (hno : role.counts = false) : cons.length = 1 := hok.2.resolve_left (by simp [hno])
    exact ⟨h.sinkCreate (inserting_of_idle hidle) hopen hlt hc (List.length_pos_iff.mpr hok.1) hpipe
      rfl rfl rfl rfl, nofun⟩
  | linkInsert =>
    match hins : s.proc.inserting with
    | [] => simp [Process.exec, hins] at hs
    | (rank, link) :: rest =>
      simp only [Process.exec, hins, Option.some.injEq, Prod.mk.injEq] at hs
      obtain ⟨rfl, rfl⟩ := hs
      have hpos : 0 < s.refs link.channel := refs_pos_of_inserting (hins ▸ List.mem_cons_self)
      exact ⟨h.linkInsert hins rfl rfl rfl rfl, by simpa using h.exists_sink hpos⟩
  | put c =>
    simp only [Process.exec, Option.bind_eq_bind, Option.bind_eq_some_iff, Option.guard_eq_some',
      Option.pure_def, Option.some.injEq, Prod.mk.injEq] at hs
    obtain ⟨sink, hc, -, ⟨-, hhandle⟩, rfl, rfl⟩ := hs
    exact ⟨h, by simpa using ⟨sink, hc, h.released_of_handle hc hhandle⟩⟩
  | chanDestroy c =>
    simp only [Process.exec, Option.bind_eq_bind, Option.bind_eq_some_iff, Option.guard_eq_some',
      Option.pure_def, Option.some.injEq, Prod.mk.injEq] at hs
    obtain ⟨sink, hc, -, ⟨-, hhandle⟩, rfl, rfl⟩ := hs
    exact ⟨h.dropHandle hc, by simpa using ⟨sink, hc, h.released_of_handle hc hhandle⟩⟩
  | get rank tag =>
    simp only [Process.exec, Option.bind_eq_bind, Option.bind_eq_some_iff, Option.guard_eq_some',
      Option.pure_def, Option.some.injEq, Prod.mk.injEq] at hs
    obtain ⟨-, hopen, link, hlink, rfl, rfl⟩ := hs
    have hmem := h.serviceLink_mem hopen hlink
    exact ⟨h.cache hopen hmem, by simpa using h.exists_sink (refs_pos_of_mem hmem)⟩
  | kill rank tag =>
    simp only [Process.exec, Option.bind_eq_bind, Option.bind_eq_some_iff, Option.guard_eq_some',
      Option.pure_def, Option.some.injEq, Prod.mk.injEq] at hs
    obtain ⟨-, hopen, ⟨by', link, rest⟩, hlink, t, hdrop, rfl, rfl⟩ := hs
    obtain ⟨hby, hperm⟩ := linkDestroy_eq_some hlink
    simp only [orderly, hlink] at hok
    have hmem : link ∈ s.links rank := hperm.mem_iff.mpr List.mem_cons_self
    refine ⟨h.of_drop hby hperm hok hdrop rfl rfl rfl fun _ => rfl, fun c hc => ?_⟩
    rcases List.mem_pair.mp hc with rfl | rfl
    · exact h.exists_sink (refs_pos_of_mem hby)
    · exact h.exists_sink (refs_pos_of_mem hmem)
  | final =>
    simp only [Process.exec, Option.ite_none_right_eq_some, Option.some.injEq, Prod.mk.injEq] at hs
    obtain ⟨⟨hidle, hopen⟩, rfl, rfl⟩ := hs
    refine ⟨h.close (inserting_of_idle hidle) fun rank hrank => ?_, nofun⟩
    exact absurd (List.mem_finRange rank) hrank
  | ltabDestroy =>
    match hclosing : s.closing with
    | none => simp [Process.exec, hclosing] at hs
    | some [] => simp [Process.exec, hclosing] at hs
    | some (rank :: ranks) =>
      obtain ⟨hins, hempty⟩ := h.closed _ hclosing
      match hlinks : s.links rank with
      | [] =>
        simp only [Process.exec, hclosing, hlinks, Option.some.injEq, Prod.mk.injEq] at hs
        obtain ⟨rfl, rfl⟩ := hs
        refine ⟨h.close hins fun r hr => ?_, nofun⟩
        rcases eq_or_ne r rank with rfl | hne
        · exact hlinks
        · exact hempty r (List.not_mem_cons_of_ne_of_not_mem hne hr)
      | link :: rest =>
        simp only [Process.exec, hclosing, hlinks, Option.bind_eq_bind, Option.bind_eq_some_iff,
          Option.pure_def, Option.some.injEq, Prod.mk.injEq] at hs
        obtain ⟨t, hdrop, rfl, rfl⟩ := hs
        simp only [orderly, hclosing, hlinks] at hok
        have hmem : link ∈ s.links rank := hlinks ▸ List.mem_cons_self
        refine ⟨h.of_drop hmem (.of_eq hlinks) hok hdrop rfl rfl rfl fun hopen => ?_,
          by simpa using h.exists_sink (refs_pos_of_mem hmem)⟩
        rw [hclosing] at hopen
        cases hopen

/-- A released channel has neither a `bc_chan_t` nor a link. -/
theorem unreferenced (h : s.Inv) {sink : Sink} (hc : s.sinks[c]? = some sink)
    (hreleased : sink.released ≠ []) : sink.handle = false ∧ s.refs c = 0 := by
  have hok := h.sinks c sink hc
  rcases Nat.eq_zero_or_pos (s.refs c) with hzero | hpos
  · exact ⟨(hok.gone hzero).2, hzero⟩
  · exact absurd (hok.held hpos) hreleased

theorem released_eq (h : s.Inv) {sink : Sink} (hc : s.sinks[c]? = some sink) :
    sink.released = [] ∨ sink.released = [sink.qtype] := by
  have hok := h.sinks c sink hc
  rcases Nat.eq_zero_or_pos (s.refs c) with hzero | hpos
  · exact .inr (hok.gone hzero).1
  · exact .inl (hok.held hpos)

/-- Once the table is destroyed no link is left. -/
theorem refs_closed (h : s.Inv) (hclosed : s.closing = some []) : s.refs c = 0 := by
  obtain ⟨hins, hempty⟩ := h.closed [] hclosed
  rw [refs, hins]
  simp [hempty]

end Inv

/-- **The steps of an orderly process.** -/
def orderlyStep : Process n → ProcessAct n → Option (Process n) :=
  restrict (fun s a => s.orderly a = true) step

theorem inv_of_reaches (h : Reaches orderlyStep (start n) s) : s.Inv := by
  refine h.invariant (fun s a t hs ha => ?_) inv_start
  obtain ⟨hok, ha⟩ := restrict_eq_some.mp ha
  obtain ⟨⟨reads, t⟩, hexec, rfl⟩ := Option.map_eq_some_iff.mp ha
  exact (hs.exec hok hexec).1

/-- How often channel `c` was released. -/
def releases (s : Process n) (c : ℕ) : ℕ := (s.sinks[c]?.map (·.released.length)).getD 0

/-- Whether there is a `bc_chan_t` for channel `c`. -/
def handle (s : Process n) (c : ℕ) : Bool := (s.sinks[c]?.map Sink.handle).getD false

end Process

/-- **A channel's record is released once**, when no `bc_chan_t` and no link refers to it, with its
queue destroyed by the queue's own type, and not read again, in every run of an orderly process; and
once the table is destroyed none is left. -/
theorem channel_released_once {n : ℕ} {s : Process n}
    (h : Reaches Process.orderlyStep (.start n) s) :
    (∀ c, s.releases c ≤ 1) ∧
    (∀ sink ∈ s.sinks, ∀ qtype ∈ sink.released, qtype = sink.qtype) ∧
    (∀ c, 0 < s.releases c → s.handle c = false ∧ s.refs c = 0) ∧
    (∀ a s', Process.orderlyStep s a = some s' → ∀ c ∈ s.reads a, s.releases c = 0) ∧
    (∀ c < s.sinks.length, s.refs c = 0 → s.releases c = 1) ∧
    (s.closing = some [] → ∀ c, s.refs c = 0) := by
  have hinv := Process.inv_of_reaches h
  refine ⟨fun c => ?_, fun sink hsink qtype hqtype => ?_, fun c hreleased => ?_,
    fun a s' ha c hc => ?_, fun c hc hrefs => ?_, fun hclosed c => hinv.refs_closed hclosed⟩
  · cases hsink : s.sinks[c]? with
    | none => simp [Process.releases, hsink]
    | some sink =>
      rcases hinv.released_eq hsink with heq | heq <;> simp [Process.releases, hsink, heq]
  · obtain ⟨c, hc⟩ := List.getElem?_of_mem hsink
    rcases hinv.released_eq hc with heq | heq
    · rw [heq] at hqtype
      exact absurd hqtype List.not_mem_nil
    · rw [heq] at hqtype
      exact List.mem_singleton.mp hqtype
  · cases hsink : s.sinks[c]? with
    | none => simp [Process.releases, hsink] at hreleased
    | some sink =>
      simp only [Process.releases, Process.handle, hsink, Option.map_some, Option.getD_some]
        at hreleased ⊢
      exact hinv.unreferenced hsink (List.length_pos_iff.mp hreleased)
  · obtain ⟨hok, ha⟩ := restrict_eq_some.mp ha
    obtain ⟨⟨reads, t⟩, hexec, rfl⟩ := Option.map_eq_some_iff.mp ha
    simp only [Process.reads, hexec, Option.map_some, Option.getD_some] at hc
    obtain ⟨sink, hsink, hheld⟩ := (hinv.exec hok hexec).2 c hc
    simp [Process.releases, hsink, hheld]
  · have hsink : s.sinks[c]? = some _ := List.getElem?_eq_getElem hc
    simp [Process.releases, hsink, ((hinv.sinks c _ hsink).gone hrefs).1]

/-- A replicated channel with two consumers: the producer leaves first, one consumer next, and the
table is destroyed with the link of the other in it. -/
theorem channel_released_once_two : ∃ s,
    run Process.orderlyStep (.start 3) [.sinkCreate .replicate [1, 2] 7, .linkInsert, .linkInsert,
      .put 0, .get 1 0, .chanDestroy 0, .kill 1 0, .final, .ltabDestroy, .ltabDestroy, .ltabDestroy,
      .ltabDestroy] = some s ∧ s.closing = some [] ∧ s.releases 0 = 1 := by
  have hrun : run Process.orderlyStep (.start 3) [.sinkCreate .replicate [1, 2] 7, .linkInsert,
      .linkInsert, .put 0, .get 1 0, .chanDestroy 0, .kill 1 0, .final, .ltabDestroy, .ltabDestroy,
      .ltabDestroy, .ltabDestroy] = some _ := rfl
  obtain ⟨-, -, -, -, hreleased, hclosed⟩ := channel_released_once ⟨_, hrun⟩
  exact ⟨_, hrun, rfl, hreleased 0 Nat.one_pos (hclosed rfl 0)⟩

/-- **A pipe whose consumer leaves first**: the channel is released while the producer has its
`bc_chan_t`, and `bc_chan_destroy` reads it. -/
theorem pipe_released_early : ∃ s,
    run Process.step (.start 2) [.sinkCreate .pipe [1] 0, .linkInsert, .kill 1 0] = some s ∧
      s.releases 0 = 1 ∧ s.handle 0 = true ∧ s.reads (.chanDestroy 0) = [0] :=
  ⟨_, rfl, rfl, rfl, rfl⟩

end Libdsys
