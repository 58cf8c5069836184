import Mathlib.Data.List.Nodup
import Libdsys.Machinery.Runs
import Libdsys.Queue.Bounds
import Libdsys.Branch.Lifetime

/-!
# Threads/Service — a service thread and its cached link

`__bc_service_thread` serves the requests of one remote process from the links of one hook.  It
keeps the link it found last, and its tag, and searches the hook only when the next request has
another tag; a KILL empties the cache.  The computation thread inserts links meanwhile.

    recv ▸ lookup ─ hit ───────────────▸ sending ▸ answer
                  ╰ miss ▸ search ▸ … ─╯

With `cached = false` the same loop searches for every GET and COND_GET.

* `Server.Inv` — no two links of the hook have the same tag, and the cached one is among them.
* `cache_transparent` — each loop serves what the other serves, whatever the rest does meanwhile.
-/

open Machinery

namespace Libdsys

variable {P : Type}

/-- The codes of `bc_service_t`. -/
inductive ServiceCode
  | get | kill | echo | condGet
deriving Repr, DecidableEq

/-- `bc_request_t`. -/
structure ServiceRequest where
  code : ServiceCode
  tag : ℕ
  dunits : ℕ
deriving Repr, DecidableEq

/-- `cond_recv`. -/
def ServiceRequest.condRecv (r : ServiceRequest) : Bool := r.code = .condGet

/-- Where `__bc_service_thread` stands. -/
inductive ServicePhase
  /-- It waits for a request. -/
  | idle
  /-- It has received a GET or a COND_GET, and is about to look at its cache. -/
  | lookup (r : ServiceRequest)
  /-- It is in `__bc_link_search`, about to go through the links. -/
  | searching (r : ServiceRequest)
  /-- It did not find the link among those from `root` on. -/
  | missed (r : ServiceRequest) (root : Option Link)
  /-- It waits for a link to be inserted. -/
  | asleep (r : ServiceRequest)
  /-- It has its link, and is about to send. -/
  | sending (r : ServiceRequest) (link : Link)
  /-- It waits in the send. -/
  | blocked (r : ServiceRequest) (link : Link)
  /-- It is in `__bc_link_destroy`. -/
  | destroying (tag : ℕ)
deriving DecidableEq

/-- `bc_cond_signal` on the hook's condition variable. -/
def ServicePhase.signal : ServicePhase → ServicePhase
  | .asleep r => .searching r
  | phase => phase

/-- A process as one of its service threads sees it: the channels it has made, with their queues,
the hook of the remote process, the requests on their way, and the thread. -/
structure Server (P : Type) where
  chans : List (SinkChan P × Queue P)
  links : List Link
  sinkTag : ℕ
  requests : List ServiceRequest
  clink : Option Link
  ctag : ℕ
  phase : ServicePhase
  /-- The requests served, each with the link it was served from. -/
  served : List (ServiceRequest × Link)
  /-- The answers written. -/
  answers : List (ServiceRequest × List Byte)

inductive ServerAct (P : Type)
  /-- `bc_sink_create` makes a channel. -/
  | sinkCreate (fresh : Fresh P) (ch : SinkChan P)
  /-- `__bc_link_insert` inserts the link of a channel into the hook. -/
  | linkInsert (c : ℕ)
  /-- Another thread uses the queue of a channel. -/
  | queue (c : ℕ) (op : QueueOp P)
  /-- A request arrives. -/
  | arrive (r : ServiceRequest)
  /-- `__bc_request_recv`. -/
  | recv
  /-- The thread looks at its cache. -/
  | lookup
  /-- It goes through the links. -/
  | search
  /-- It compares the root with the one it started from. -/
  | recheck
  /-- It wakes up without a signal. -/
  | spurious
  /-- The lock section of the send, the first one or one after a wait. -/
  | send
  /-- `__bc_link_destroy` returns; `kept` is the list it leaves. -/
  | destroyed (kept : List Link)

namespace Server

/-- `__bc_ltab_create`, and the thread created. -/
def start : Server P := ⟨[], [], 0, [], none, 9999, .idle, [], []⟩

/-- The request is served from `link`. -/
def serve (s : Server P) (r : ServiceRequest) (link : Link) : Server P :=
  { s with phase := .sending r link, served := s.served ++ [(r, link)] }

/-- The request was answered with `fd`. -/
def answered (s : Server P) (r : ServiceRequest) (fd : List Byte) : Server P :=
  { s with phase := .idle, answers := s.answers ++ [(r, fd)] }

variable [DecidableEq P]

/-- `bc_iface[role].s` or `sn`, one lock section. -/
def sendStep (remote : P) (s : Server P) (r : ServiceRequest) (link : Link) :
    Option (Server P) := do
  let (ch, queue) ← s.chans[link.channel]?
  match ← queue.send remote link.tag (sizeMul ch.dtype.bytes r.dunits) r.condRecv with
  | .sent queue fd =>
    return { s with chans := s.chans.set link.channel (ch, queue) }.answered r fd
  | .refused fd => return s.answered r fd
  | .wait => return { s with phase := .blocked r link }

/-- One step, with the cache or without it.  A no-copy queue of no units has no slot to create; a
KILL may cost a link that was inserted meanwhile (`Ltab/Destroy`). -/
def step (cached : Bool) (self remote : P) (s : Server P) : ServerAct P → Option (Server P)
  | .sinkCreate fresh ch =>
    if ch.role.c.isSome ∧ (ch.copies ∨ 0 < ch.dunits) then
      some { s with
        chans := s.chans ++ [(ch, Queue.create fresh self s.chans.length ch)] }
    else none
  | .linkInsert c => do
    let (ch, _) ← s.chans[c]?
    if remote ∈ ch.plist then
      return { s with
        links := ⟨s.sinkTag, c⟩ :: s.links
        sinkTag := s.sinkTag + 1
        phase := s.phase.signal }
    else none
  | .queue c op => do
    let (ch, queue) ← s.chans[c]?
    let queue ← op.run queue
    return { s with chans := s.chans.set c (ch, queue) }
  | .arrive r => some { s with requests := s.requests ++ [r] }
  | .recv =>
    match s.phase, s.requests with
    | .idle, r :: rest =>
      some { s with
        requests := rest
        phase := match r.code with
          | .get | .condGet => .lookup r
          | .kill => .destroying r.tag
          | .echo => .idle }
    | _, _ => none
  | .lookup =>
    match s.phase with
    | .lookup r =>
      match s.clink with
      | some link =>
        if cached ∧ r.tag = s.ctag then some (s.serve r link)
        else some { s with phase := .searching r }
      | none => some { s with phase := .searching r }
    | _ => none
  | .search =>
    match s.phase with
    | .searching r =>
      match linkSearch s.links r.tag with
      | some link => some ({ s with clink := some link, ctag := r.tag }.serve r link)
      | none => some { s with phase := .missed r s.links.head? }
    | _ => none
  | .recheck =>
    match s.phase with
    | .missed r root =>
      if root = s.links.head? then some { s with phase := .asleep r }
      else some { s with phase := .searching r }
    | _ => none
  | .spurious =>
    match s.phase with
    | .asleep r => some { s with phase := .searching r }
    | _ => none
  | .send =>
    match s.phase with
    | .sending r link => s.sendStep remote r link
    | .blocked r link => s.sendStep remote r link
    | _ => none
  | .destroyed kept =>
    match s.phase with
    | .destroying tag => do
      let (_, _, rest) ← linkDestroy tag s.links
      if kept.Sublist rest then
        return { s with links := kept, clink := none, phase := .idle }
      else none
    | _ => none

/-! ## What a step can be -/

/-- **What a step can be**: what each branch of `step` checked, and the state it left. -/
inductive Moves (cached : Bool) (self remote : P) (s : Server P) : ServerAct P → Server P → Prop
  | sinkCreate {fresh ch} (hrole : ch.role.c.isSome)
    (hunits : ch.copies ∨ 0 < ch.dunits) :
    Moves cached self remote s (.sinkCreate fresh ch) { s with
      chans := s.chans ++ [(ch, Queue.create fresh self s.chans.length ch)] }
  | linkInsert {c ch queue} (hc : s.chans[c]? = some (ch, queue)) (hmem : remote ∈ ch.plist) :
    Moves cached self remote s (.linkInsert c) { s with
      links := ⟨s.sinkTag, c⟩ :: s.links
      sinkTag := s.sinkTag + 1
      phase := s.phase.signal }
  | queue {c op ch queue queue'} (hc : s.chans[c]? = some (ch, queue))
    (hop : QueueOp.run queue op = some queue') :
    Moves cached self remote s (.queue c op) { s with chans := s.chans.set c (ch, queue') }
  | arrive {r} : Moves cached self remote s (.arrive r) { s with requests := s.requests ++ [r] }
  | get {r rest} (hphase : s.phase = .idle) (hreq : s.requests = r :: rest)
    (hcode : r.code = .get ∨ r.code = .condGet) :
    Moves cached self remote s .recv { s with requests := rest, phase := .lookup r }
  | kill {r rest} (hphase : s.phase = .idle) (hreq : s.requests = r :: rest)
    (hcode : r.code = .kill) :
    Moves cached self remote s .recv { s with requests := rest, phase := .destroying r.tag }
  | echo {r rest} (hphase : s.phase = .idle) (hreq : s.requests = r :: rest)
    (hcode : r.code = .echo) :
    Moves cached self remote s .recv { s with requests := rest, phase := .idle }
  | hit {r link} (hphase : s.phase = .lookup r) (hcached : cached = true)
    (hlink : s.clink = some link) (htag : r.tag = s.ctag) :
    Moves cached self remote s .lookup (s.serve r link)
  | miss {r} (hphase : s.phase = .lookup r)
    (hmiss : ¬(cached = true ∧ s.clink.isSome ∧ r.tag = s.ctag)) :
    Moves cached self remote s .lookup { s with phase := .searching r }
  | found {r link} (hphase : s.phase = .searching r)
    (hfind : linkSearch s.links r.tag = some link) :
    Moves cached self remote s .search ({ s with clink := some link, ctag := r.tag }.serve r link)
  | missed {r} (hphase : s.phase = .searching r) (hfind : linkSearch s.links r.tag = none) :
    Moves cached self remote s .search { s with phase := .missed r s.links.head? }
  | sleep {r} (hphase : s.phase = .missed r s.links.head?) :
    Moves cached self remote s .recheck { s with phase := .asleep r }
  | again {r root} (hphase : s.phase = .missed r root) (hroot : root ≠ s.links.head?) :
    Moves cached self remote s .recheck { s with phase := .searching r }
  | wake {r} (hphase : s.phase = .asleep r) :
    Moves cached self remote s .spurious { s with phase := .searching r }
  | send {r link s'} (hphase : s.phase = .sending r link ∨ s.phase = .blocked r link)
    (hsend : s.sendStep remote r link = some s') : Moves cached self remote s .send s'
  | destroyed {tag kept by' link rest} (hphase : s.phase = .destroying tag)
    (hdestroy : linkDestroy tag s.links = some (by', link, rest)) (hkept : kept.Sublist rest) :
    Moves cached self remote s (.destroyed kept)
      { s with links := kept, clink := none, phase := .idle }

theorem moves_of_recv {cached : Bool} {self remote : P} {s t : Server P}
    (h : s.step cached self remote .recv = some t) : Moves cached self remote s .recv t := by
  simp only [step] at h
  split at h
  case h_2 => cases h
  case h_1 r rest hphase hreq =>
    obtain rfl := Option.some.inj h
    cases hcode : r.code with
    | get => exact .get hphase hreq (.inl hcode)
    | condGet => exact .get hphase hreq (.inr hcode)
    | kill => exact .kill hphase hreq hcode
    | echo => exact .echo hphase hreq hcode

theorem moves_of_lookup {cached : Bool} {self remote : P} {s t : Server P}
    (h : s.step cached self remote .lookup = some t) : Moves cached self remote s .lookup t := by
  simp only [step] at h
  split at h
  case h_2 => cases h
  case h_1 r hphase =>
    split at h
    case h_1 link hlink =>
      split at h
      case isTrue hhit =>
        obtain rfl := Option.some.inj h
        exact .hit hphase hhit.1 hlink hhit.2
      case isFalse hmiss =>
        obtain rfl := Option.some.inj h
        exact .miss hphase fun hhit => hmiss ⟨hhit.1, hhit.2.2⟩
    case h_2 hnone =>
      obtain rfl := Option.some.inj h
      exact .miss hphase fun hhit => by simp [hnone] at hhit

theorem moves_of_step {cached : Bool} {self remote : P} {s t : Server P} {a : ServerAct P}
    (h : s.step cached self remote a = some t) : Moves cached self remote s a t := by
  cases a with
  | sinkCreate fresh ch =>
    obtain ⟨⟨hrole, hunits⟩, ⟨⟩⟩ := Option.ite_none_right_eq_some.mp h
    exact .sinkCreate hrole hunits
  | linkInsert c =>
    simp only [step, Option.bind_eq_bind, Option.bind_eq_some_iff] at h
    obtain ⟨⟨ch, queue⟩, hc, h⟩ := h
    obtain ⟨hmem, ⟨⟩⟩ := Option.ite_none_right_eq_some.mp h
    exact .linkInsert hc hmem
  | queue c op =>
    simp only [step, Option.bind_eq_bind, Option.bind_eq_some_iff] at h
    obtain ⟨⟨ch, queue⟩, hc, queue', hop, ⟨⟩⟩ := h
    exact .queue hc hop
  | arrive r =>
    obtain rfl := Option.some.inj h
    exact .arrive
  | recv => exact moves_of_recv h
  | lookup => exact moves_of_lookup h
  | search =>
    simp only [step] at h
    split at h
    case h_2 => cases h
    case h_1 r hphase =>
      split at h
      case h_1 link hfind =>
        obtain rfl := Option.some.inj h
        exact .found hphase hfind
      case h_2 hfind =>
        obtain rfl := Option.some.inj h
        exact .missed hphase hfind
  | recheck =>
    simp only [step] at h
    split at h
    case h_2 => cases h
    case h_1 r root hphase =>
      split at h
      case isTrue hroot =>
        obtain rfl := Option.some.inj h
        exact .sleep (hroot ▸ hphase)
      case isFalse hroot =>
        obtain rfl := Option.some.inj h
        exact .again hphase hroot
  | spurious =>
    simp only [step] at h
    split at h
    case h_2 => cases h
    case h_1 r hphase =>
      obtain rfl := Option.some.inj h
      exact .wake hphase
  | send =>
    simp only [step] at h
    split at h
    case h_1 r link hphase => exact .send (.inl hphase) h
    case h_2 r link hphase => exact .send (.inr hphase) h
    case h_3 => cases h
  | destroyed kept =>
    simp only [step] at h
    split at h
    case h_2 => cases h
    case h_1 tag hphase =>
      simp only [Option.bind_eq_bind, Option.bind_eq_some_iff] at h
      obtain ⟨⟨by', link, rest⟩, hdestroy, h⟩ := h
      obtain ⟨hkept, ⟨⟩⟩ := Option.ite_none_right_eq_some.mp h
      exact .destroyed hphase hdestroy hkept

/-- A send leaves the hook, the requests and the cache alone. -/
theorem sendStep_frame {remote : P} {s t : Server P} {r : ServiceRequest} {link : Link}
    (h : s.sendStep remote r link = some t) :
    t.links = s.links ∧ t.sinkTag = s.sinkTag ∧ t.clink = s.clink ∧ t.ctag = s.ctag ∧
      t.served = s.served := by
  simp only [sendStep, Option.bind_eq_bind, Option.bind_eq_some_iff] at h
  obtain ⟨⟨ch, queue⟩, -, outcome, -, h⟩ := h
  cases outcome with
  | sent queue fd =>
    obtain rfl := Option.some.inj h
    exact ⟨rfl, rfl, rfl, rfl, rfl⟩
  | refused fd =>
    obtain rfl := Option.some.inj h
    exact ⟨rfl, rfl, rfl, rfl, rfl⟩
  | wait =>
    obtain rfl := Option.some.inj h
    exact ⟨rfl, rfl, rfl, rfl, rfl⟩

/-! ## The cached link -/

/-- **The invariant of the hook**: its tags were drawn, no two links have the same, and the cached
link is one of them. -/
structure Inv (s : Server P) : Prop where
  nodup : (s.links.map Link.tag).Nodup
  drawn : ∀ l ∈ s.links, l.tag < s.sinkTag
  clink : ∀ l, s.clink = some l → l ∈ s.links ∧ l.tag = s.ctag

omit [DecidableEq P] in
theorem inv_start : (start : Server P).Inv where
  nodup := List.nodup_nil
  drawn := nofun
  clink := nofun

theorem linkSearch_eq_some {ls : List Link} {tag : ℕ} {link : Link}
    (h : linkSearch ls tag = some link) : link ∈ ls ∧ link.tag = tag :=
  ⟨List.mem_of_find?_eq_some h, by simpa using List.find?_some h⟩

/-- A search finds the only link with its tag. -/
theorem linkSearch_of_mem {ls : List Link} (hnodup : (ls.map Link.tag).Nodup) {link : Link}
    (hmem : link ∈ ls) : linkSearch ls link.tag = some link := by
  cases hfind : linkSearch ls link.tag with
  | none => simpa using List.find?_eq_none.mp hfind link hmem
  | some link' =>
    obtain ⟨hmem', htag⟩ := linkSearch_eq_some hfind
    rw [List.inj_on_of_nodup_map hnodup hmem' hmem htag]

namespace Inv

variable {self remote : P} {cached : Bool} {s t : Server P} {a : ServerAct P}

omit [DecidableEq P] in
/-- What leaves the hook and the cache alone. -/
theorem congr (h : s.Inv) (hlinks : t.links = s.links) (htag : t.sinkTag = s.sinkTag)
    (hclink : t.clink = s.clink) (hctag : t.ctag = s.ctag) : t.Inv where
  nodup := hlinks ▸ h.nodup
  drawn := by rw [hlinks, htag]; exact h.drawn
  clink := by rw [hlinks, hclink, hctag]; exact h.clink

theorem moves (h : s.Inv) (ha : Moves cached self remote s a t) : t.Inv := by
  cases ha with
  | linkInsert hc hmem =>
    exact {
      nodup := List.nodup_cons.mpr ⟨fun hold => by
        obtain ⟨l, hl, htag⟩ := List.mem_map.mp hold
        exact (h.drawn l hl).ne htag, h.nodup⟩
      drawn := fun l hl => by
        rcases List.mem_cons.mp hl with rfl | hl
        · exact Nat.lt_succ_self _
        · exact (h.drawn l hl).trans (Nat.lt_succ_self _)
      clink := fun l hl => (h.clink l hl).imp_left (List.mem_cons_of_mem _) }
  | @found r link hphase hfind =>
    obtain ⟨hmem, htag⟩ := linkSearch_eq_some hfind
    exact {
      nodup := h.nodup
      drawn := h.drawn
      clink := fun l hl => by
        obtain rfl := Option.some.inj hl
        exact ⟨hmem, htag⟩ }
  | destroyed hphase hdestroy hkept =>
    obtain ⟨-, hperm⟩ := Process.linkDestroy_eq_some hdestroy
    have hnodup := (hperm.map Link.tag).nodup_iff.mp h.nodup
    exact {
      nodup := (List.nodup_cons.mp hnodup).2.sublist (hkept.map _)
      drawn := fun l hl =>
        h.drawn l (hperm.mem_iff.mpr (List.mem_cons_of_mem _ (hkept.subset hl)))
      clink := nofun }
  | send hphase hsend =>
    obtain ⟨hlinks, htag, hclink, hctag, -⟩ := sendStep_frame hsend
    exact h.congr hlinks htag hclink hctag
  | _ => exact h.congr rfl rfl rfl rfl

theorem step (h : s.Inv) (ha : s.step cached self remote a = some t) : t.Inv :=
  h.moves (moves_of_step ha)

end Inv

theorem inv_of_reaches {cached : Bool} {self remote : P} {s : Server P}
    (h : Reaches (step cached self remote) start s) : s.Inv :=
  h.invariant (fun _ _ _ hs ha => hs.step ha) inv_start

/-! ## The two loops -/

/-- All but the lookup: what the rest of the process sees of the thread. -/
def visible : ServerAct P → Bool
  | .lookup | .search => false
  | _ => true

section Loops

variable {self remote : P} {s t : Server P} {a : ServerAct P} {r : ServiceRequest} {link : Link}

/-- Only the lookup knows of the cache. -/
theorem step_eq_of_ne_lookup (ha : a ≠ .lookup) :
    s.step false self remote a = s.step true self remote a := by
  cases a with
  | lookup => exact absurd rfl ha
  | _ => rfl

theorem step_lookup_uncached (hphase : s.phase = .lookup r) :
    s.step false self remote .lookup = some { s with phase := .searching r } := by
  simp only [step, hphase]
  cases s.clink <;> simp

omit [DecidableEq P] in
/-- The cached link is what a search would find, and to find it changes nothing. -/
theorem Inv.search_of_hit (h : s.Inv) (hlink : s.clink = some link) (htag : r.tag = s.ctag) :
    linkSearch s.links r.tag = some link ∧
      { s with clink := some link, ctag := r.tag }.serve r link = s.serve r link := by
  obtain ⟨hmem, hctag⟩ := h.clink link hlink
  refine ⟨?_, ?_⟩
  · rw [htag, ← hctag]
    exact linkSearch_of_mem h.nodup hmem
  · rw [htag, ← hlink]

/-- **A step with the cache is one without**, where a hit is a search that finds the same link. -/
theorem step_uncached (h : s.Inv) (ha : s.step true self remote a = some t) :
    ∃ bs, run (step false self remote) s bs = some t ∧ bs.filter visible = [a].filter visible := by
  by_cases hlookup : a = .lookup
  · subst hlookup
    cases moves_of_step ha with
    | @hit r link hphase hcached hlink htag =>
      obtain ⟨hfind, hserve⟩ := h.search_of_hit hlink htag
      have hsearch : ({ s with phase := .searching r } : Server P).step false self remote .search =
          some (s.serve r link) := by
        rw [← hserve]
        simp only [step, hfind]
        rfl
      exact ⟨[.lookup, .search], by simp [step_lookup_uncached hphase, hsearch], rfl⟩
    | miss hphase hmiss => exact ⟨[.lookup], by simp [step_lookup_uncached hphase], rfl⟩
  · exact ⟨[a], by simp [step_eq_of_ne_lookup hlookup, ha], rfl⟩

/-- The loop without the cache is where the loop with it is, or has left its lookup to search. -/
def Ahead (s s' : Server P) : Prop :=
  s = s' ∨ ∃ r, s'.phase = .lookup r ∧ s = { s' with phase := .searching r }

theorem step_lookup_hit (hphase : s.phase = .lookup r) (hlink : s.clink = some link)
    (htag : r.tag = s.ctag) : s.step true self remote .lookup = some (s.serve r link) := by
  simp only [step, hphase, hlink]
  exact if_pos ⟨trivial, htag⟩

theorem step_lookup_miss (hphase : s.phase = .lookup r)
    (hmiss : ∀ link, s.clink = some link → r.tag ≠ s.ctag) :
    s.step true self remote .lookup = some { s with phase := .searching r } := by
  simp only [step, hphase]
  cases hlink : s.clink with
  | none => rfl
  | some link => exact if_neg fun hhit => hmiss link hlink hhit.2

/-- **A step without the cache is one with it, or is made up for by the next.** -/
theorem step_cached {s' : Server P} (h : s'.Inv) (hahead : Ahead s s')
    (ha : s.step false self remote a = some t) :
    ∃ bs t', run (step true self remote) s' bs = some t' ∧
      bs.filter visible = [a].filter visible ∧ Ahead t t' := by
  rcases hahead with rfl | ⟨r, hphase, rfl⟩
  · by_cases hlookup : a = .lookup
    · -- the loop with the cache waits for the search
      subst hlookup
      cases moves_of_step ha with
      | hit hphase hcached => cases hcached
      | miss hphase hmiss => exact ⟨[], s, rfl, rfl, .inr ⟨_, hphase, rfl⟩⟩
    · exact ⟨[a], t, by simp [← step_eq_of_ne_lookup hlookup, ha], rfl, .inl rfl⟩
  · cases moves_of_step ha with
    | @sinkCreate fresh ch hrole hunits =>
      refine ⟨[.sinkCreate fresh ch], { s' with
        chans := s'.chans ++ [(ch, Queue.create fresh self s'.chans.length ch)] }, ?_, rfl,
        .inr ⟨r, hphase, rfl⟩⟩
      simp [step, hrole, hunits]
    | @linkInsert c ch queue hc hmem =>
      refine ⟨[.linkInsert c], { s' with
        links := ⟨s'.sinkTag, c⟩ :: s'.links
        sinkTag := s'.sinkTag + 1
        phase := s'.phase.signal }, ?_, rfl, .inr ⟨r, by rw [hphase]; rfl, rfl⟩⟩
      replace hc : s'.chans[c]? = some (ch, queue) := hc
      simp [step, hc, hmem]
    | @queue c op ch queue queue' hc hop =>
      refine ⟨[.queue c op], { s' with chans := s'.chans.set c (ch, queue') }, ?_, rfl,
        .inr ⟨r, hphase, rfl⟩⟩
      replace hc : s'.chans[c]? = some (ch, queue) := hc
      simp [step, hc, hop]
    | @arrive r' =>
      exact ⟨[.arrive r'], { s' with requests := s'.requests ++ [r'] }, rfl, rfl,
        .inr ⟨r, hphase, rfl⟩⟩
    | @found r' link hsearch hfind =>
      obtain rfl := ServicePhase.searching.inj hsearch
      replace hfind : linkSearch s'.links r.tag = some link := hfind
      by_cases hhit : ∃ l, s'.clink = some l ∧ r.tag = s'.ctag
      · obtain ⟨l, hlink, htag⟩ := hhit
        obtain ⟨hfind', hserve⟩ := h.search_of_hit hlink htag
        obtain rfl : link = l := Option.some.inj (hfind.symm.trans hfind')
        exact ⟨[.lookup], s'.serve r link, by simp [step_lookup_hit hphase hlink htag], rfl,
          .inl hserve⟩
      · refine ⟨[.lookup, .search], _, ?_, rfl, .inl rfl⟩
        rw [run_cons, step_lookup_miss hphase fun l hl htag => hhit ⟨l, hl, htag⟩]
        exact congrArg (Option.bind · _) ha
    | @missed r' hsearch hfind =>
      obtain rfl := ServicePhase.searching.inj hsearch
      replace hfind : linkSearch s'.links r.tag = none := hfind
      have hmiss : ∀ link, s'.clink = some link → r.tag ≠ s'.ctag := fun link hlink htag => by
        obtain ⟨hfind', -⟩ := h.search_of_hit hlink htag
        rw [hfind] at hfind'
        cases hfind'
      refine ⟨[.lookup, .search], _, ?_, rfl, .inl rfl⟩
      rw [run_cons, step_lookup_miss hphase hmiss]
      exact congrArg (Option.bind · _) ha
    | send hsend => rcases hsend with hsend | hsend <;> cases hsend
    | get hidle | kill hidle | echo hidle => cases hidle
    | hit hlookup | miss hlookup => cases hlookup
    | sleep hmissed | again hmissed => cases hmissed
    | wake hasleep => cases hasleep
    | destroyed hdestroying => cases hdestroying

end Loops

end Server

section Transparent

variable [DecidableEq P] {self remote : P} {s : Server P} {acts : List (ServerAct P)}

/-- **The cache is transparent.**  Every run of the service thread with its cache is, action by
action of everything else, a run of the loop that searches for every request, which serves the same
requests from the same links — and the cached link is in the hook; and the other way round. -/
theorem cache_transparent :
    (run (Server.step true self remote) .start acts = some s →
      (∀ link, s.clink = some link → link ∈ s.links) ∧
      ∃ acts' s', run (Server.step false self remote) .start acts' = some s' ∧
        acts'.filter Server.visible = acts.filter Server.visible ∧ s'.served = s.served) ∧
    (run (Server.step false self remote) .start acts = some s →
      ∃ acts' s', run (Server.step true self remote) .start acts' = some s' ∧
        acts'.filter Server.visible = acts.filter Server.visible ∧ s'.served = s.served) := by
  constructor
  · intro hrun
    have hstep : ∀ (s : Server P) a t s', s.Inv ∧ s = s' → s.step true self remote a = some t →
        ∃ bs t', run (Server.step false self remote) s' bs = some t' ∧
          bs.filter Server.visible = [a].filter Server.visible ∧ t.Inv ∧ t = t' := by
      rintro s a t _ ⟨h, rfl⟩ ha
      obtain ⟨bs, hbs, hvisible⟩ := Server.step_uncached h ha
      exact ⟨bs, t, hbs, hvisible, h.step ha, rfl⟩
    obtain ⟨acts', s', hrun', hvisible, hinv, rfl⟩ :=
      run_simulates hstep ⟨Server.inv_start, rfl⟩ hrun
    exact ⟨fun link hlink => (hinv.clink link hlink).1, acts', s, hrun', hvisible, rfl⟩
  · intro hrun
    have hstep : ∀ (s : Server P) a t s', s'.Inv ∧ Server.Ahead s s' →
        s.step false self remote a = some t →
        ∃ bs t', run (Server.step true self remote) s' bs = some t' ∧
          bs.filter Server.visible = [a].filter Server.visible ∧ t'.Inv ∧ Server.Ahead t t' := by
      rintro s a t s' ⟨h, hahead⟩ ha
      obtain ⟨bs, t', hbs, hvisible, hahead'⟩ := Server.step_cached h hahead ha
      exact ⟨bs, t', hbs, hvisible,
        Reaches.invariant (fun _ _ _ h ha => Server.Inv.step h ha) ⟨bs, hbs⟩ h, hahead'⟩
    obtain ⟨acts', s', hrun', hvisible, -, hahead⟩ :=
      run_simulates hstep ⟨Server.inv_start, .inl rfl⟩ hrun
    refine ⟨acts', s', hrun', hvisible, ?_⟩
    rcases hahead with rfl | ⟨r, -, rfl⟩
    · rfl
    · rfl

end Transparent

/-- A pipe of process 0 to process 1, which gets two units: the second GET hits the cache. -/
def pipeActs : List (ServerAct ℕ) :=
  [.sinkCreate ⟨fun _ _ _ _ => 0, fun _ _ _ => 0⟩ ⟨.pipe, [1], .char, 2⟩, .linkInsert 0,
    .queue 0 (.put 0 [7, 8]), .arrive ⟨.get, 0, 1⟩, .arrive ⟨.get, 0, 1⟩, .recv, .lookup, .search,
    .send, .recv, .lookup, .send]

theorem cache_transparent_pipe : ∃ acts' s',
    run (Server.step false 0 1) .start acts' = some s' ∧
      acts'.filter Server.visible = pipeActs.filter Server.visible ∧
      s'.served = [(⟨.get, 0, 1⟩, ⟨0, 0⟩), (⟨.get, 0, 1⟩, ⟨0, 0⟩)] := by
  have hrun : run (Server.step true 0 1) .start pipeActs = some _ := rfl
  exact (cache_transparent.1 hrun).2

end Libdsys
