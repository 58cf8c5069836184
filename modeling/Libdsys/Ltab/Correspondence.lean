import Mathlib.Data.Option.Basic
import Libdsys.Ltab.Tags

/-!
# Ltab/Correspondence — the k-th source reaches the k-th sink

Processes that create channels, insert links and serve each other's requests, in any order.  A
request carries a tag and nothing else; the service thread looks the tag up in the hook of the
peer it serves, unless it is the one it has cached, and waits when the link is not there yet.

* `Net.Wf` — requests on their way, cached links and everything served agree with the ordinals.
* `Net.request?_step` — a thread leaves a request only for a link with its tag.
* `channel_correspondence` — the k-th source reaches the k-th sink, or waits for it.
-/

open Machinery

namespace Libdsys

variable {P : Type}

/-! ## Requests and service threads -/

/-- `bc_request_t` of a GET: its tag, and which of the sender's sources issued it. -/
structure Request where
  tag : ℕ
  src : ℕ
deriving DecidableEq

/-- Where a service thread stands in `__bc_link_search`. -/
inductive Search
  /-- It waits for a request. -/
  | idle
  /-- It is about to look at the hook's root. -/
  | searching (r : Request)
  /-- It did not find the link among those from `root` on. -/
  | missed (r : Request) (root : Option Link)
  /-- It sleeps until a link is inserted. -/
  | asleep (r : Request)
deriving DecidableEq

/-- The request a service thread is at. -/
def Search.request? : Search → Option Request
  | .idle => none
  | .searching r => some r
  | .missed r _ => some r
  | .asleep r => some r

/-- `bc_cond_signal` on the hook's condition variable. -/
def Search.signal : Search → Search
  | .asleep r => .searching r
  | st => st

/-- `__bc_service_thread`, with its cached link and tag. -/
structure ServiceThread where
  clink : Option Link
  ctag : ℕ
  search : Search
deriving DecidableEq

/-- A request that was served, and from which channel of the server. -/
structure Served (P : Type) where
  server : P
  getter : P
  request : Request
  channel : ℕ

/-- All processes: the sockets their requests travel on, from the getter to the server, and the
service threads, of the server for the getter. -/
structure Net (P : Type) where
  proc : P → Proc P
  socket : P → P → List Request
  service : P → P → ServiceThread
  served : List (Served P)

inductive NetAct (P : Type)
  /-- `bc_sink_create` up to `__bc_link_insert`. -/
  | sinkCreate (p : P) (cons : List P)
  /-- `bc_src_create`. -/
  | srcCreate (p : P) (prod : List P)
  /-- One insertion of `__bc_link_insert`. -/
  | linkInsert (p : P)
  /-- The request of source `j` to the `i`-th of its producers. -/
  | request (q : P) (j i : ℕ)
  /-- The service thread of `p` for `q` receives a request. -/
  | recv (p q : P)
  /-- It goes through the links from the root on. -/
  | search (p q : P)
  /-- It compares the root with the one it started from. -/
  | recheck (p q : P)
  /-- It wakes up without a signal. -/
  | spurious (p q : P)

namespace Net

/-- `__bc_ltab_create` in every process, no request sent. -/
def start : Net P := ⟨fun _ => .start, fun _ _ => [], fun _ _ => ⟨none, 9999, .idle⟩, []⟩

variable [DecidableEq P]

/-- The state with another service thread of `p` for `q`. -/
def setService (s : Net P) (p q : P) (st : ServiceThread) : Net P :=
  { s with service := Function.update s.service p (Function.update (s.service p) q st) }

def setProc (s : Net P) (p : P) (proc : Proc P) : Net P :=
  { s with proc := Function.update s.proc p proc }

def setSocket (s : Net P) (q p : P) (rs : List Request) : Net P :=
  { s with socket := Function.update s.socket q (Function.update (s.socket q) p rs) }

/-- A request of `q` is served by `p` from a link, which becomes the cached one. -/
def serve (s : Net P) (p q : P) (r : Request) (link : Link) : Net P :=
  { s.setService p q ⟨some link, r.tag, .idle⟩ with
    served := s.served ++ [⟨p, q, r, link.channel⟩] }

/-- One step of some thread.  A process creates and gets only between the insertions of a sink. -/
def step (s : Net P) : NetAct P → Option (Net P)
  | .sinkCreate p cons =>
    if (s.proc p).inserting = [] ∧ cons.Nodup ∧ p ∉ cons then
      some (s.setProc p (bcSinkCreate (s.proc p) cons))
    else none
  | .srcCreate p prod =>
    if (s.proc p).inserting = [] ∧ prod.Nodup ∧ p ∉ prod then
      some (s.setProc p (bcSrcCreate (s.proc p) prod))
    else none
  | .linkInsert p =>
    match (s.proc p).inserting with
    | [] => none
    | (q, link) :: rest =>
      let st := s.service p q
      some ((s.setProc p (Libdsys.linkInsert (s.proc p) q link rest)).setService p q
        { st with search := st.search.signal })
  | .request q j i => do
    guard ((s.proc q).inserting = [])
    let ch ← (s.proc q).srcs[j]?
    let p ← ch.plist[i]?
    let tag ← ch.tags[i]?
    return s.setSocket q p (s.socket q p ++ [⟨tag, j⟩])
  | .recv p q =>
    let st := s.service p q
    match st.search, s.socket q p with
    | .idle, r :: rest =>
      let s := s.setSocket q p rest
      match st.clink with
      | some link =>
        if r.tag = st.ctag then some (s.serve p q r link)
        else some (s.setService p q { st with search := .searching r })
      | none => some (s.setService p q { st with search := .searching r })
    | _, _ => none
  | .search p q =>
    let st := s.service p q
    match st.search with
    | .searching r =>
      let links := ((s.proc p).ltab q).links
      match links.find? (·.tag = r.tag) with
      | some link => some (s.serve p q r link)
      | none => some (s.setService p q { st with search := .missed r links.head? })
    | _ => none
  | .recheck p q =>
    let st := s.service p q
    match st.search with
    | .missed r root =>
      if root = ((s.proc p).ltab q).links.head? then
        some (s.setService p q { st with search := .asleep r })
      else some (s.setService p q { st with search := .searching r })
    | _ => none
  | .spurious p q =>
    let st := s.service p q
    match st.search with
    | .asleep r => some (s.setService p q { st with search := .searching r })
    | _ => none

/-- **What a step can be**: what each branch of `step` checked, and the state it left. -/
inductive Moves (s : Net P) : NetAct P → Net P → Prop
  | sinkCreate {p cons} (hins : (s.proc p).inserting = []) (hnodup : cons.Nodup) :
    Moves s (.sinkCreate p cons) (s.setProc p (bcSinkCreate (s.proc p) cons))
  | srcCreate {p prod} (hnodup : prod.Nodup) :
    Moves s (.srcCreate p prod) (s.setProc p (bcSrcCreate (s.proc p) prod))
  | linkInsert {p q link rest} (hins : (s.proc p).inserting = (q, link) :: rest) :
    Moves s (.linkInsert p)
      ((s.setProc p (Libdsys.linkInsert (s.proc p) q link rest)).setService p q
        { s.service p q with search := (s.service p q).search.signal })
  | request {q j i ch p tag} (hch : (s.proc q).srcs[j]? = some ch) (hp : ch.plist[i]? = some p)
    (htag : ch.tags[i]? = some tag) :
    Moves s (.request q j i) (s.setSocket q p (s.socket q p ++ [⟨tag, j⟩]))
  | cached {p q r rest link} (hidle : (s.service p q).search = .idle)
    (hsocket : s.socket q p = r :: rest) (hlink : (s.service p q).clink = some link)
    (htag : r.tag = (s.service p q).ctag) :
    Moves s (.recv p q) ((s.setSocket q p rest).serve p q r link)
  | uncached {p q r rest} (hidle : (s.service p q).search = .idle)
    (hsocket : s.socket q p = r :: rest) :
    Moves s (.recv p q) ((s.setSocket q p rest).setService p q
      { s.service p q with search := .searching r })
  | found {p q r link} (hsearch : (s.service p q).search = .searching r)
    (hfind : ((s.proc p).ltab q).links.find? (·.tag = r.tag) = some link) :
    Moves s (.search p q) (s.serve p q r link)
  | missed {p q r} (hsearch : (s.service p q).search = .searching r)
    (hfind : ((s.proc p).ltab q).links.find? (·.tag = r.tag) = none) :
    Moves s (.search p q) (s.setService p q
      { s.service p q with search := .missed r ((s.proc p).ltab q).links.head? })
  | sleep {p q r root} (hsearch : (s.service p q).search = .missed r root)
    (hroot : root = ((s.proc p).ltab q).links.head?) :
    Moves s (.recheck p q) (s.setService p q { s.service p q with search := .asleep r })
  | again {p q r root} (hsearch : (s.service p q).search = .missed r root) :
    Moves s (.recheck p q) (s.setService p q { s.service p q with search := .searching r })
  | wake {p q r} (hsearch : (s.service p q).search = .asleep r) :
    Moves s (.spurious p q) (s.setService p q { s.service p q with search := .searching r })

theorem moves_of_recv {s s' : Net P} {p q : P} (hs : s.step (.recv p q) = some s') :
    Moves s (.recv p q) s' := by
  match hsearch : (s.service p q).search, hsocket : s.socket q p with
  | .idle, r :: rest =>
    simp only [Net.step, hsearch, hsocket] at hs
    split at hs
    case h_1 link hlink =>
      split at hs
      case isTrue htag =>
        obtain rfl := Option.some.inj hs
        exact .cached hsearch hsocket hlink htag
      case isFalse =>
        obtain rfl := Option.some.inj hs
        exact .uncached hsearch hsocket
    case h_2 =>
      obtain rfl := Option.some.inj hs
      exact .uncached hsearch hsocket
  | .idle, [] => simp [Net.step, hsearch, hsocket] at hs
  | .searching _, _ | .missed _ _, _ | .asleep _, _ => simp [Net.step, hsearch] at hs

theorem moves_of_search {s s' : Net P} {p q : P} (hs : s.step (.search p q) = some s') :
    Moves s (.search p q) s' := by
  match hsearch : (s.service p q).search with
  | .searching r =>
    simp only [Net.step, hsearch] at hs
    split at hs
    case h_1 link hfind =>
      obtain rfl := Option.some.inj hs
      exact .found hsearch hfind
    case h_2 hfind =>
      obtain rfl := Option.some.inj hs
      exact .missed hsearch hfind
  | .idle | .missed _ _ | .asleep _ => simp [Net.step, hsearch] at hs

theorem moves_of_recheck {s s' : Net P} {p q : P} (hs : s.step (.recheck p q) = some s') :
    Moves s (.recheck p q) s' := by
  match hsearch : (s.service p q).search with
  | .missed r root =>
    simp only [Net.step, hsearch] at hs
    split at hs
    case isTrue hroot =>
      obtain rfl := Option.some.inj hs
      exact .sleep hsearch hroot
    case isFalse =>
      obtain rfl := Option.some.inj hs
      exact .again hsearch
  | .idle | .searching _ | .asleep _ => simp [Net.step, hsearch] at hs

theorem moves_of_spurious {s s' : Net P} {p q : P} (hs : s.step (.spurious p q) = some s') :
    Moves s (.spurious p q) s' := by
  match hsearch : (s.service p q).search with
  | .asleep r =>
    simp only [Net.step, hsearch, Option.some.injEq] at hs
    subst hs
    exact .wake hsearch
  | .idle | .searching _ | .missed _ _ => simp [Net.step, hsearch] at hs

theorem moves_of_step {s s' : Net P} {a : NetAct P} (hs : s.step a = some s') : Moves s a s' := by
  cases a with
  | sinkCreate p cons =>
    simp only [Net.step, Option.ite_none_right_eq_some, Option.some.injEq] at hs
    obtain ⟨⟨hins, hnodup, -⟩, rfl⟩ := hs
    exact .sinkCreate hins hnodup
  | srcCreate p prod =>
    simp only [Net.step, Option.ite_none_right_eq_some, Option.some.injEq] at hs
    obtain ⟨⟨-, hnodup, -⟩, rfl⟩ := hs
    exact .srcCreate hnodup
  | linkInsert p =>
    cases hins : (s.proc p).inserting with
    | nil => simp [Net.step, hins] at hs
    | cons head rest =>
      simp only [Net.step, hins, Option.some.injEq] at hs
      subst hs
      exact .linkInsert hins
  | request q j i =>
    simp only [Net.step, Option.bind_eq_bind, Option.bind_eq_some_iff] at hs
    obtain ⟨-, -, ch, hch, p, hp, tag, htag, hs⟩ := hs
    obtain rfl := Option.some.inj hs
    exact .request hch hp htag
  | recv p q => exact moves_of_recv hs
  | search p q => exact moves_of_search hs
  | recheck p q => exact moves_of_recheck hs
  | spurious p q => exact moves_of_spurious hs

/-! ## What holds of all processes -/

/-- A request of source `src` of `q` to `p` carries the ordinal of that source. -/
def Sent (s : Net P) (p q : P) (r : Request) : Prop := IsNth (s.proc q).srcs p r.tag r.src

/-- What a service thread knows of its hook. -/
structure Knows (links : List Link) (st : ServiceThread) : Prop where
  clink : ∀ l, st.clink = some l → l ∈ links ∧ l.tag = st.ctag
  missed : ∀ r root, st.search = .missed r root → (∀ l, root = some l → l ∈ links) ∧
    (root = links.head? → ∀ l ∈ links, l.tag ≠ r.tag)
  asleep : ∀ r, st.search = .asleep r → ∀ l ∈ links, l.tag ≠ r.tag

/-- **The invariant.** -/
structure Wf (s : Net P) : Prop where
  proc : ∀ p, (s.proc p).Wf
  socket : ∀ p q, ∀ r ∈ s.socket q p, s.Sent p q r
  request : ∀ p q r, (s.service p q).search.request? = some r → s.Sent p q r
  knows : ∀ p q, Knows ((s.proc p).ltab q).links (s.service p q)
  served : ∀ e ∈ s.served, s.Sent e.server e.getter e.request ∧
    IsNth (s.proc e.server).sinks e.getter e.request.tag e.channel

theorem wf_start : (start : Net P).Wf where
  proc _ := Libdsys.wf_start
  socket _ _ _ hr := absurd hr List.not_mem_nil
  request _ _ _ hr := nomatch hr
  knows _ _ := ⟨fun _ hl => (nomatch hl), fun _ _ hr => (nomatch hr), fun _ hr => (nomatch hr)⟩
  served _ he := absurd he List.not_mem_nil

variable {s s' : Net P} {p q : P}

theorem proc_setProc (proc : Proc P) (p' : P) :
    (s.setProc p proc).proc p' = if p' = p then proc else s.proc p' := Function.update_apply _ _ _ _

theorem service_setService (st : ServiceThread) (p' q' : P) :
    (s.setService p q st).service p' q' = if p' = p ∧ q' = q then st else s.service p' q' :=
  update_update_apply _ _ _ _ _ _

theorem socket_setSocket (rs : List Request) (q' p' : P) :
    (s.setSocket q p rs).socket q' p' = if q' = q ∧ p' = p then rs else s.socket q' p' :=
  update_update_apply _ _ _ _ _ _

/-- A process that only extends its lists of channels… -/
theorem Sent.setProc {proc : Proc P} (hsrcs : (s.proc p).srcs <+: proc.srcs) {p' q' : P}
    {r : Request} (hr : s.Sent p' q' r) : (s.setProc p proc).Sent p' q' r := by
  rw [Sent, proc_setProc]
  split
  case isTrue heq => exact hr.mono (heq ▸ hsrcs)
  case isFalse => exact hr

/-- …leaves every ordinal as it is. -/
theorem isNth_setProc {proc : Proc P} (hsinks : (s.proc p).sinks <+: proc.sinks) {p' q' : P}
    {k c : ℕ} (h : IsNth (s.proc p').sinks q' k c) :
    IsNth ((s.setProc p proc).proc p').sinks q' k c := by
  rw [proc_setProc]
  split
  case isTrue heq => exact h.mono (heq ▸ hsinks)
  case isFalse => exact h

namespace Wf

/-- Creating a channel extends a list of channels and touches no link. -/
theorem setProc (h : s.Wf) {proc : Proc P} (hwf : proc.Wf)
    (hsinks : (s.proc p).sinks <+: proc.sinks) (hsrcs : (s.proc p).srcs <+: proc.srcs)
    (hlinks : ∀ q, (proc.ltab q).links = ((s.proc p).ltab q).links) : (s.setProc p proc).Wf := by
  refine ⟨fun p' => ?_, fun p' q' r hr => (h.socket p' q' r hr).setProc hsrcs,
    fun p' q' r hr => (h.request p' q' r hr).setProc hsrcs, fun p' q' => ?_,
    fun e he => ⟨(h.served e he).1.setProc hsrcs, isNth_setProc hsinks (h.served e he).2⟩⟩
  · rw [proc_setProc]
    split
    · exact hwf
    · exact h.proc p'
  · have hsame : (((s.setProc p proc).proc p').ltab q').links = ((s.proc p').ltab q').links := by
      rw [proc_setProc]
      split
      case isTrue heq => exact heq ▸ hlinks q'
      case isFalse => rfl
    rw [hsame]
    exact h.knows p' q'

theorem setSocket (h : s.Wf) {rs : List Request} (hrs : ∀ r ∈ rs, s.Sent p q r) :
    (s.setSocket q p rs).Wf := by
  refine ⟨h.proc, fun p' q' r hr => ?_, h.request, h.knows, h.served⟩
  rw [socket_setSocket] at hr
  split at hr
  case isTrue heq =>
    obtain ⟨rfl, rfl⟩ := heq
    exact hrs r hr
  case isFalse => exact h.socket p' q' r hr

/-- The first request on a socket, and the socket without it. -/
theorem head (h : s.Wf) {r : Request} {rest : List Request} (hsocket : s.socket q p = r :: rest) :
    s.Sent p q r :=
  h.socket p q r (hsocket ▸ List.mem_cons_self)

theorem pop (h : s.Wf) {r : Request} {rest : List Request} (hsocket : s.socket q p = r :: rest) :
    (s.setSocket q p rest).Wf :=
  h.setSocket fun r' hr' => h.socket p q r' (hsocket ▸ List.mem_cons_of_mem _ hr')

theorem setService (h : s.Wf) {st : ServiceThread}
    (hreq : ∀ r, st.search.request? = some r → s.Sent p q r)
    (hknows : Knows ((s.proc p).ltab q).links st) : (s.setService p q st).Wf := by
  refine ⟨h.proc, h.socket, fun p' q' r hr => ?_, fun p' q' => ?_, h.served⟩
  · rw [service_setService] at hr
    split at hr
    case isTrue heq =>
      obtain ⟨rfl, rfl⟩ := heq
      exact hreq r hr
    case isFalse => exact h.request p' q' r hr
  · rw [service_setService]
    split
    case isTrue heq =>
      obtain ⟨rfl, rfl⟩ := heq
      exact hknows
    case isFalse => exact h.knows p' q'

/-- **A request is served from the sink of its ordinal**: its tag is the link's. -/
theorem serve (h : s.Wf) {r : Request} (hr : s.Sent p q r) {link : Link}
    (hlink : link ∈ ((s.proc p).ltab q).links) (htag : link.tag = r.tag) :
    (s.serve p q r link).Wf := by
  have hst : (s.setService p q ⟨some link, r.tag, .idle⟩).Wf := by
    refine h.setService (fun _ hr => (nomatch hr)) ⟨fun l hl => ?_, fun _ _ hr => (nomatch hr),
      fun _ hr => (nomatch hr)⟩
    obtain rfl := Option.some.inj hl
    exact ⟨hlink, htag⟩
  refine ⟨hst.proc, hst.socket, hst.request, hst.knows, fun e he => ?_⟩
  rcases List.mem_append.mp he with hold | hnew
  · exact h.served e hold
  · obtain rfl := List.mem_singleton.mp hnew
    refine ⟨hr, ?_⟩
    have hnth := (h.proc p).links q link (List.mem_append_right _ hlink)
    rwa [htag] at hnth

/-- **An insertion wakes the searcher**, and its tag is none that was there. -/
theorem linkInsert (h : s.Wf) {link : Link} {rest : List (P × Link)}
    (hins : (s.proc p).inserting = (q, link) :: rest) :
    ((s.setProc p (Libdsys.linkInsert (s.proc p) q link rest)).setService p q
      { s.service p q with search := (s.service p q).search.signal }).Wf := by
  have hwf : (Libdsys.linkInsert (s.proc p) q link rest).Wf := (h.proc p).linkInsert hins
  have hsrcs : (s.proc p).srcs <+: (Libdsys.linkInsert (s.proc p) q link rest).srcs :=
    List.prefix_rfl
  have hsinks : (s.proc p).sinks <+: (Libdsys.linkInsert (s.proc p) q link rest).sinks :=
    List.prefix_rfl
  have hlinks p' q' : (((s.setProc p (Libdsys.linkInsert (s.proc p) q link rest)).proc p').ltab
      q').links = if p' = p ∧ q' = q then link :: ((s.proc p).ltab q).links
        else ((s.proc p').ltab q').links := by
    rw [proc_setProc]
    rcases eq_or_ne p' p with rfl | hp
    · rw [if_pos rfl, linkInsert_ltab]
      rcases eq_or_ne q' q with rfl | hq
      · rw [if_pos rfl, if_pos ⟨rfl, rfl⟩]
      · rw [if_neg hq, if_neg fun h => hq h.2]
    · rw [if_neg hp, if_neg fun h => hp h.1]
  have hnew : ∀ l ∈ ((s.proc p).ltab q).links, l.tag ≠ link.tag := by
    have hnodup := (hwf.nodup q).sublist ((List.sublist_append_right _ _).map Link.tag)
    rw [linkInsert_ltab, if_pos rfl, List.map_cons, List.nodup_cons] at hnodup
    exact fun l hl htag => hnodup.1 (htag ▸ List.mem_map_of_mem hl)
  refine ⟨fun p' => ?_, fun p' q' r hr => (h.socket p' q' r hr).setProc hsrcs,
    fun p' q' r hr => ?_, fun p' q' => ?_,
    fun e he => ⟨(h.served e he).1.setProc hsrcs, isNth_setProc hsinks (h.served e he).2⟩⟩
  · refine (congrArg Proc.Wf (proc_setProc _ p')).mpr ?_
    split
    · exact hwf
    · exact h.proc p'
  · refine Sent.setProc hsrcs (h.request p' q' r ?_)
    rw [service_setService] at hr
    split at hr
    case isTrue heq =>
      obtain ⟨rfl, rfl⟩ := heq
      cases hsearch : (s.service p' q').search <;> rw [hsearch] at hr <;> exact hr
    case isFalse => exact hr
  · rw [service_setService]
    refine (congrArg (Knows · _) (hlinks p' q')).mpr ?_
    split
    case isFalse => exact h.knows p' q'
    rename_i heq
    obtain ⟨rfl, rfl⟩ := heq
    have hold := h.knows p' q'
    refine ⟨fun l hl => ?_, fun r root hr => ?_, fun r hr => ?_⟩
    · exact ⟨List.mem_cons_of_mem _ (hold.clink l hl).1, (hold.clink l hl).2⟩
    · have hmissed : (s.service p' q').search = .missed r root := by
        cases hsearch : (s.service p' q').search <;> rw [hsearch] at hr <;>
          first | exact hr | exact nomatch hr
      have hroot := (hold.missed r root hmissed).1
      refine ⟨fun l hl => List.mem_cons_of_mem _ (hroot l hl), fun hhead => ?_⟩
      exact absurd rfl (hnew link (hroot link hhead))
    · cases hsearch : (s.service p' q').search <;> rw [hsearch] at hr <;> exact nomatch hr

/-- **A thread that goes back to searching** knows its cached link and nothing else. -/
theorem setSearching (h : s.Wf) {r : Request} (hr : s.Sent p q r) :
    (s.setService p q { s.service p q with search := .searching r }).Wf :=
  h.setService (fun _ hr' => Option.some.inj hr' ▸ hr)
    ⟨(h.knows p q).clink, fun _ _ hr => (nomatch hr), fun _ hr => (nomatch hr)⟩

theorem step (h : s.Wf) {a : NetAct P} (hs : s.step a = some s') : s'.Wf := by
  -- the request a thread is at carries the ordinal of its source
  have hat {p q r st} (hst : (s.service p q).search = st) (hr : st.request? = some r) :
      s.Sent p q r := h.request p q r (hst ▸ hr)
  cases moves_of_step hs with
  | sinkCreate hins hnodup =>
    exact h.setProc ((h.proc _).bcSinkCreate hins hnodup) (List.prefix_append _ _) List.prefix_rfl
      (links_eq_of_drawTags (fun _ => rfl))
  | srcCreate hnodup =>
    exact h.setProc ((h.proc _).bcSrcCreate hnodup) List.prefix_rfl (List.prefix_append _ _)
      (links_eq_of_drawTags (fun _ => rfl))
  | linkInsert hins => exact h.linkInsert hins
  | @request q j i ch p tag hch hp htag =>
    refine h.setSocket fun r hr => ?_
    rcases List.mem_append.mp hr with hold | hnew
    · exact h.socket p q r hold
    · obtain rfl := List.mem_singleton.mp hnew
      exact (h.proc q).srcs.isNth hch hp htag
  | @cached p q r rest link _ hsocket hlink htag =>
    have hl := (h.knows p q).clink link hlink
    exact (h.pop hsocket).serve (h.head hsocket) hl.1 (hl.2.trans htag.symm)
  | uncached _ hsocket => exact (h.pop hsocket).setSearching (h.head hsocket)
  | @found p q r link hsearch hfind =>
    have htag : link.tag = r.tag := by simpa using List.find?_some hfind
    exact h.serve (hat hsearch rfl) (List.mem_of_find?_eq_some hfind) htag
  | @missed p q r hsearch hfind =>
    refine h.setService (fun _ hr' => Option.some.inj hr' ▸ hat hsearch rfl)
      ⟨(h.knows p q).clink, fun r' root hr' => ?_, fun _ hr => (nomatch hr)⟩
    obtain ⟨rfl, rfl⟩ := Search.missed.inj hr'
    refine ⟨fun l hl => List.mem_of_head? hl, fun _ l hl htag => ?_⟩
    exact absurd htag (by simpa using List.find?_eq_none.mp hfind l hl)
  | @sleep p q r root hsearch hroot =>
    refine h.setService (fun _ hr' => Option.some.inj hr' ▸ hat hsearch rfl)
      ⟨(h.knows p q).clink, fun _ _ hr => (nomatch hr), fun r' hr' => ?_⟩
    obtain rfl := Search.asleep.inj hr'
    exact ((h.knows p q).missed r root hsearch).2 hroot
  | again hsearch => exact h.setSearching (hat hsearch rfl)
  | wake hsearch => exact h.setSearching (hat hsearch rfl)

theorem of_reaches (hs : Reaches Net.step Net.start s) : s.Wf :=
  hs.invariant (fun _ _ _ h hstep => h.step hstep) wf_start

end Wf

theorem request?_signal (st : Search) : st.signal.request? = st.request? := by cases st <;> rfl

theorem request?_setService {p' q' : P} {st : ServiceThread}
    (hst : st.search.request? = (s.service p' q').search.request?) (p q : P) :
    ((s.setService p' q' st).service p q).search.request? = (s.service p q).search.request? := by
  rw [service_setService]
  split
  case isTrue heq =>
    obtain ⟨rfl, rfl⟩ := heq
    exact hst
  case isFalse => rfl

/-- **A thread leaves a request only for a link with its tag.** -/
theorem request?_step {a : NetAct P} (hs : s.step a = some s') {r : Request}
    (hr : (s.service p q).search.request? = some r) :
    (s'.service p q).search.request? = some r ∨ ∃ l ∈ ((s.proc p).ltab q).links, l.tag = r.tag := by
  have hkeep {p' q' st st'} (hsearch : (s.service p' q').search = st)
      (hst : st'.search.request? = st.request?) :
      ((s.setService p' q' st').service p q).search.request? = some r :=
    (request?_setService (hst.trans (congrArg Search.request? hsearch).symm) p q).trans hr
  have hother {p' q'} (hne : ¬ (p = p' ∧ q = q')) (st') :
      ((s.setService p' q' st').service p q).search.request? = some r :=
    (congrArg (·.search.request?) ((service_setService st' p q).trans (if_neg hne))).trans hr
  -- only an idle thread receives, and the thread at `r` is not
  have hbusy {p' q'} (hidle : (s.service p' q').search = .idle) : ¬ (p = p' ∧ q = q') := by
    rintro ⟨rfl, rfl⟩
    rw [hidle] at hr
    exact nomatch hr
  cases moves_of_step hs with
  | sinkCreate | srcCreate | request => exact .inl hr
  | linkInsert => exact .inl ((request?_setService (request?_signal _) p q).trans hr)
  | cached hidle => exact .inl (hother (hbusy hidle) _)
  | uncached hidle => exact .inl (hother (hbusy hidle) _)
  | @found p' q' r' link hsearch hfind =>
    rcases em (p = p' ∧ q = q') with ⟨rfl, rfl⟩ | hne
    · rw [hsearch] at hr
      obtain rfl := Option.some.inj hr
      exact .inr ⟨link, List.mem_of_find?_eq_some hfind, by simpa using List.find?_some hfind⟩
    · exact .inl (hother hne _)
  | missed hsearch => exact .inl (hkeep hsearch rfl)
  | sleep hsearch => exact .inl (hkeep hsearch rfl)
  | again hsearch => exact .inl (hkeep hsearch rfl)
  | wake hsearch => exact .inl (hkeep hsearch rfl)

end Net

/-- **Channel correspondence.**  However creations, insertions and requests of the processes
interleave: a request of `q`'s `k`-th source naming `p` is served from `p`'s `k`-th sink naming `q`,
and no other channel is that; as long as that sink does not exist, the thread it has reached stays
with it; a thread that sleeps has no link to find; and the tags of a hook are pairwise distinct. -/
theorem channel_correspondence [DecidableEq P] (s : Net P) (hs : Reaches Net.step Net.start s) :
    (∀ e ∈ s.served, ∃ k, IsNth (s.proc e.getter).srcs e.server k e.request.src ∧
      ∀ c, IsNth (s.proc e.server).sinks e.getter k c ↔ c = e.channel) ∧
    (∀ p q r k, (s.service p q).search.request? = some r →
      IsNth (s.proc q).srcs p k r.src → (∀ c, ¬ IsNth (s.proc p).sinks q k c) →
      ∀ a s', s.step a = some s' → (s'.service p q).search.request? = some r) ∧
    (∀ p q r, (s.service p q).search = .asleep r →
      ∀ l ∈ ((s.proc p).ltab q).links, l.tag ≠ r.tag) ∧
    ∀ p q, (((s.proc p).ltab q).links.map Link.tag).Nodup := by
  have h := Net.Wf.of_reaches hs
  refine ⟨fun e he => ?_, fun p q r k hr hk hno a s' hstep => ?_, fun p q => (h.knows p q).asleep,
    fun p q => ?_⟩
  · obtain ⟨hsrc, hsink⟩ := h.served e he
    refine ⟨e.request.tag, hsrc, fun c => ⟨fun hc => hc.unique hsink, ?_⟩⟩
    rintro rfl
    exact hsink
  · refine (Net.request?_step hstep hr).resolve_right ?_
    rintro ⟨l, hl, htag⟩
    have hnth := (h.proc p).links q l (List.mem_append_right _ hl)
    have hkr : k = r.tag := hk.before.symm.trans (h.request p q r hr).before
    rw [htag, ← hkr] at hnth
    exact hno _ hnth
  · exact ((h.proc p).nodup q).sublist ((List.sublist_append_right _ _).map Link.tag)

/-- Two processes: the request of 1's second source arrives before 0's second sink does. -/
theorem channel_correspondence_two : ∃ s : Net (Fin 2), Reaches Net.step Net.start s ∧
    s.served = [⟨0, 1, ⟨1, 1⟩, 1⟩] ∧ ((((s.proc 0).ltab 1).links).map Link.tag).Nodup := by
  have hrun : ∃ s : Net (Fin 2), Machinery.run Net.step Net.start
      [.sinkCreate 0 [1], .linkInsert 0, .srcCreate 1 [0], .srcCreate 1 [0], .request 1 1 0,
        .recv 0 1, .search 0 1, .recheck 0 1, .sinkCreate 0 [1], .linkInsert 0, .search 0 1]
      = some s ∧ s.served = [⟨0, 1, ⟨1, 1⟩, 1⟩] := ⟨_, rfl, rfl⟩
  obtain ⟨s, hs, hserved⟩ := hrun
  exact ⟨s, ⟨_, hs⟩, hserved, (channel_correspondence s ⟨_, hs⟩).2.2.2 0 1⟩

end Libdsys
