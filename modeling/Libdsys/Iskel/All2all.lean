import Libdsys.Dsys.Progress
import Libdsys.Iskel.Create

/-!
# Iskel/All2all — rounds of an all-to-all

In a round of `iskel_all2all_exec` the root collects a unit from each of the others and replicates
what it then has: all of them.  The others put their unit and get the whole.  Nobody waits for the
end of a round, so that the root may be in one round and some of the others still in the one before.

* `iskelAll2allExec` — the rounds of one process.
* `SkelCall.star` — who is linked to whom, by what all of them created.
-/

open Machinery

namespace Libdsys

/-! ## The rounds -/

/-- `iskel_all2all_t`, without its channels: the source and the sink are the first of their
process. -/
structure All2all where
  root : ℤ
  num : ℕ
deriving Repr, DecidableEq

/-- What `iskel_all2all_create` returns. -/
def iskelAll2all (pl : Plist) (bcRank : ℤ) : Option All2all :=
  if ¬ pl.isvalid ∨ ¬ pl.iselem bcRank then none
  else
    match pl.plist with
    | [] => none
    | rank :: ranks => some ⟨smallest rank ranks, (rank :: ranks).length⟩

/-- Where a process is that goes through rounds. -/
structure Exec where
  /-- The first call of the round has returned. -/
  half : Bool
  /-- The root's `out`, between its two calls. -/
  out : List Byte
  /-- What `out` was after each round. -/
  outs : List (List Byte)
deriving Repr, DecidableEq

/-- Nothing done. -/
def Exec.start : Exec := ⟨false, [], []⟩

/-- `R` rounds of `iskel_all2all_exec` on units of `bytes` bytes: `input` is what `in` points to in
a round, and `out` what `out` points to before it. -/
def iskelAll2allExec (bytes : ℕ) (topo : All2all) (bcRank : ℤ) (R : ℕ)
    (input out : ℕ → List Byte) : Program Exec where
  call st :=
    if R ≤ st.outs.length then none
    else if bcRank = topo.root then
      -- `out` is stored into before it is read from its second unit on.
      if st.half then some (.put (.sink 0) (some st.out) topo.num)
      else some (.get (.src 0) (some ((out st.outs.length).drop bytes)) 1)
    else if st.half then some (.get (.src 0) (some (out st.outs.length)) topo.num)
    else some (.put (.sink 0) (some (input st.outs.length)) 1)
  resume st
    | (_, loc) =>
      if bcRank = topo.root then
        if st.half then ⟨false, [], st.outs ++ [st.out]⟩
        else { st with half := true, out := (input st.outs.length).take bytes ++ loc }
      else if st.half then { st with half := false, outs := st.outs ++ [loc] }
      else { st with half := true }

/-! ## The channels -/

/-- The channel of a sink that was made. -/
def Creation.sinkChan (dtype : Dtype) : Creation → Option (SinkChan ℤ)
  | .sink _ (some cons) bunits role => some ⟨role, cons.plist, dtype, bunits⟩
  | _ => none

/-- The role of a source that was made. -/
def Creation.srcRole : Creation → Option Role
  | .src _ (some _) role => some role
  | _ => none

/-- **What all processes have** that have gone through a call, for data of type `dtype`. -/
def SkelCall.conf (call : SkelCall) (dtype : Dtype) : Conf ℤ where
  chans p :=
    { sinks := (call.creations p).filterMap (Creation.sinkChan dtype)
      srcs := List.zipWith (fun role (src : Chan ℤ) => ⟨role, src.plist.zip src.tags, dtype⟩)
        ((call.creations p).filterMap Creation.srcRole) (createAll p 0 [call] .start).proc.srcs }
  ltab p q := ((createAll p 0 [call] .start).proc.ltab q).links

/-- The program of a process: a topology of `NULL` does nothing. -/
def SkelCall.exec (call : SkelCall) (dtype : Dtype) (R : ℕ) (input out : ℤ → ℕ → List Byte)
    (p : ℤ) : Program Exec :=
  match iskelAll2all ⟨call.plist, call.valid p⟩ p with
  | none => ⟨fun _ => none, fun st _ => st⟩
  | some topo => iskelAll2allExec dtype.bytes topo p R (input p) (out p)

/-- **A star** with its links: a channel from the root to all others, and one from each of them. -/
structure Star (conf : Conf ℤ) (dtype : Dtype) (root : ℤ) (l : List ℤ) : Prop where
  nodup : l.Nodup
  root_not_mem : root ∉ l
  root_chans : conf.chans root =
    ⟨[⟨.replicate, l, dtype, l.length + 1⟩], [⟨.collect, l.map (·, 0), dtype⟩]⟩
  chans : ∀ q ∈ l, conf.chans q = ⟨[⟨.pipe, [root], dtype, 1⟩], [⟨.pipe, [(root, 0)], dtype⟩]⟩
  outside : ∀ q ∉ l, q ≠ root → conf.chans q = ⟨[], []⟩
  down : ∀ q ∈ l, conf.ltab root q = [⟨0, 0⟩]
  up : ∀ q ∈ l, conf.ltab q root = [⟨0, 0⟩]

/-! ### The links -/

/-- Links to distinct ranks are inserted in a hook each. -/
theorem links_linkInsertAll {cons : List ℤ} (h : cons.Nodup) (link : Link) (proc : Proc ℤ)
    (r : ℤ) : ((linkInsertAll (cons.map (·, link)) proc).ltab r).links =
      if r ∈ cons then link :: (proc.ltab r).links else (proc.ltab r).links := by
  induction cons generalizing proc with
  | nil => rfl
  | cons rank cons ih =>
    obtain ⟨hnot, hnodup⟩ := List.nodup_cons.mp h
    rw [List.map_cons, linkInsertAll, ih hnodup]
    rcases eq_or_ne r rank with rfl | hne
    · simp [linkInsert, hnot]
    · simp [linkInsert, hne]

theorem srcs_linkInsertAll (ls : List (ℤ × Link)) (proc : Proc ℤ) :
    (linkInsertAll ls proc).srcs = proc.srcs := by
  induction ls generalizing proc with
  | nil => rfl
  | cons x ls ih => exact ih _

/-- A hook that was drawn from has its links as they were. -/
theorem links_drawTags {draw : Hook → ℕ × Hook} (hdraw : ∀ h : Hook, (draw h).2.links = h.links)
    {ltab : ℤ → Hook} {ranks : List ℤ} (h : ranks.Nodup) (r : ℤ) :
    ((drawTags draw ltab ranks).2 r).links = (ltab r).links := by
  rw [drawTags_snd h]
  split
  · exact hdraw _
  · rfl

/-- **A process that makes a source and a sink**: all their tags are 0. -/
theorem create_src_sink {prod cons : Plist} (hprod : prod.plist.Nodup) (hcons : cons.plist.Nodup)
    (inst bunits : ℕ) (edge edge' : SkelEdge) (role role' : Role) {s : Skeletons}
    (hs : [Creation.src edge (some prod) role, .sink edge' (some cons) bunits role'].foldl
      (Skeletons.create inst) .start = s) :
    s.proc.srcs = [⟨prod.plist, prod.plist.map fun _ => 0⟩] ∧
      ∀ r, (s.proc.ltab r).links = if r ∈ cons.plist then [⟨0, 0⟩] else [] := by
  subst hs
  let ltab := (drawTags gtag Proc.start.ltab prod.plist).2
  let proc : Proc ℤ :=
    { ltab := (drawTags ptag ltab cons.plist).2
      sinks := [⟨cons.plist, (drawTags ptag ltab cons.plist).1⟩]
      srcs := [⟨prod.plist, (drawTags gtag Proc.start.ltab prod.plist).1⟩]
      inserting := cons.plist.zip ((drawTags ptag ltab cons.plist).1.map (⟨·, 0⟩)) }
  have hsinkTag (r : ℤ) : (ltab r).sinkTag = 0 := by
    simp only [ltab, drawTags_snd hprod]
    split <;> rfl
  have hinserting : proc.inserting = cons.plist.map (·, (⟨0, 0⟩ : Link)) := by
    simp only [proc, drawTags_fst hcons, List.map_map]
    rw [← List.map_prod_left_eq_zip]
    refine List.map_congr_left fun r _ => ?_
    simp [ptag, hsinkTag]
  have hlinks (r : ℤ) : (proc.ltab r).links = [] := by
    refine (links_drawTags (fun _ => rfl) hcons r).trans ?_
    exact links_drawTags (fun _ => rfl) hprod r
  change (linkInsertAll proc.inserting proc).srcs = _ ∧ ∀ r,
    ((linkInsertAll proc.inserting proc).ltab r).links = _
  rw [hinserting]
  refine ⟨?_, fun r => ?_⟩
  · simp only [srcs_linkInsertAll, proc, drawTags_fst hprod]
    rfl
  · rw [links_linkInsertAll hcons, hlinks]

variable {call : SkelCall} {dtype : Dtype}

variable (dtype) in
/-- What a process has that makes a source and a sink in a call. -/
theorem conf_src_sink {p : ℤ} {prod cons : Plist} {edge edge' : SkelEdge} {role role' : Role}
    {bunits : ℕ} (hprod : prod.plist.Nodup) (hcons : cons.plist.Nodup)
    (h : call.creations p = [.src edge (some prod) role, .sink edge' (some cons) bunits role']) :
    (call.conf dtype).chans p = ⟨[⟨role', cons.plist, dtype, bunits⟩],
      [⟨role, prod.plist.map (·, 0), dtype⟩]⟩ ∧
    ∀ q, (call.conf dtype).ltab p q = if q ∈ cons.plist then [⟨0, 0⟩] else [] := by
  have hmade : createAll p 0 [call] .start =
      [Creation.src edge (some prod) role, .sink edge' (some cons) bunits role'].foldl
        (Skeletons.create 0) .start := by
    rw [← h]
    rfl
  obtain ⟨hsrcs, hlinks⟩ := create_src_sink hprod hcons 0 bunits edge edge' role role' hmade.symm
  refine ⟨?_, hlinks⟩
  simp only [SkelCall.conf, h, hsrcs]
  simp [List.filterMap_cons, Creation.sinkChan, Creation.srcRole, List.map_prod_left_eq_zip]

/-- The others are one less. -/
theorem length_filter_not_mem {l : List ℤ} (h : l.Nodup) {root : ℤ} (hroot : root ∈ l) :
    (l.filter (· ∉ [root])).length + 1 = l.length := by
  have hfilter : l.filter (· ∉ [root]) = l.erase root := by
    rw [h.erase_eq_filter]
    exact List.filter_congr fun x _ => by rw [Bool.eq_iff_iff]; simp
  have hpos := List.length_pos_of_mem hroot
  rw [hfilter, List.length_erase_of_mem hroot]
  omega

/-- **An all-to-all is a star** around the smallest rank. -/
theorem star_conf (hok : call.Ok) (hskel : call.skeleton = .all2all) {rank : ℤ} {ranks : List ℤ}
    (hplist : call.plist = rank :: ranks) : Star (call.conf dtype) dtype (smallest rank ranks)
      (call.plist.filter (· ∉ [smallest rank ranks])) := by
  obtain ⟨hcentre, hother, houtside⟩ := creations_all2all hok hskel hplist
  have hmem : smallest rank ranks ∈ call.plist := hplist ▸ smallest_mem rank ranks
  generalize smallest rank ranks = root at hcentre hother hmem ⊢
  have hnodup : (call.plist.filter (· ∉ [root])).Nodup := hok.nodup.filter _
  obtain ⟨hroot, hdown⟩ := conf_src_sink dtype hnodup hnodup hcentre
  have hleaf {q : ℤ} (hq : q ∈ call.plist.filter (· ∉ [root])) : q ∈ call.plist ∧ q ≠ root := by
    simpa using List.mem_filter.mp hq
  have hup {q : ℤ} (hq : q ∈ call.plist.filter (· ∉ [root])) :=
    conf_src_sink dtype (List.nodup_singleton root) (List.nodup_singleton root)
      (hother q (hleaf hq).1 (hleaf hq).2)
  refine ⟨hnodup, by simp, ?_, fun q hq => (hup hq).1, fun q hq hne => ?_, fun q hq => ?_,
    fun q hq => ?_⟩
  · rw [hroot, length_filter_not_mem hok.nodup hmem]
  · have hout : q ∉ call.plist := fun h => hq (List.mem_filter.mpr ⟨h, by simpa using hne⟩)
    have hnone : createAll q 0 [call] .start = .start := by
      rw [createAll, houtside q hout]
      rfl
    simp only [SkelCall.conf, houtside q hout, hnone]
    rfl
  · rw [hdown, if_pos hq]
  · rw [(hup hq).2, if_pos List.mem_cons_self]

/-- The topology that a process is given. -/
theorem iskelAll2all_eq (hok : call.Ok) {rank : ℤ} {ranks : List ℤ}
    (hplist : call.plist = rank :: ranks) (p : ℤ) :
    iskelAll2all ⟨call.plist, call.valid p⟩ p =
      if p ∈ call.plist then some ⟨smallest rank ranks, call.plist.length⟩ else none := by
  by_cases hp : p ∈ call.plist
  · rw [iskelAll2all, if_neg (hok.participates hp), if_pos hp, hplist]
  · rw [if_neg hp]
    exact if_pos (.inr (by simpa [Plist.iselem] using hp))

/-! ### What is known of a star -/

namespace Star

variable {conf : Conf ℤ} {root : ℤ} {l : List ℤ}

theorem mem_sinks (h : Star conf dtype root l) {p : ℤ} {ch : SinkChan ℤ}
    (hch : ch ∈ (conf.chans p).sinks) :
    p = root ∧ ch = ⟨.replicate, l, dtype, l.length + 1⟩ ∨
      p ∈ l ∧ ch = ⟨.pipe, [root], dtype, 1⟩ := by
  by_cases hp : p ∈ l
  · rw [h.chans p hp] at hch
    exact .inr ⟨hp, List.mem_singleton.mp hch⟩
  · by_cases hroot : p = root
    · subst hroot
      rw [h.root_chans] at hch
      exact .inl ⟨rfl, List.mem_singleton.mp hch⟩
    · rw [h.outside p hp hroot] at hch
      cases hch

theorem mem_srcs (h : Star conf dtype root l) {q : ℤ} {src : Src ℤ}
    (hsrc : src ∈ (conf.chans q).srcs) :
    q = root ∧ src = ⟨.collect, l.map (·, 0), dtype⟩ ∨
      q ∈ l ∧ src = ⟨.pipe, [(root, 0)], dtype⟩ := by
  by_cases hq : q ∈ l
  · rw [h.chans q hq] at hsrc
    exact .inr ⟨hq, List.mem_singleton.mp hsrc⟩
  · by_cases hroot : q = root
    · subst hroot
      rw [h.root_chans] at hsrc
      exact .inl ⟨rfl, List.mem_singleton.mp hsrc⟩
    · rw [h.outside q hq hroot] at hsrc
      cases hsrc

theorem ordered (h : Star conf dtype root l) : conf.Ordered where
  matched p q src tag link hsrc hlink hfind := by
    obtain ⟨rfl, rfl⟩ | ⟨hq, rfl⟩ := h.mem_srcs hsrc
    · obtain ⟨x, hx, heq⟩ := List.mem_map.mp hlink
      obtain ⟨rfl, rfl⟩ := Prod.mk.inj heq
      rw [h.up x hx] at hfind
      obtain rfl := Option.some.inj hfind
      exact ⟨_, by rw [h.chans x hx]; rfl, rfl, List.mem_cons_self⟩
    · obtain ⟨rfl, rfl⟩ := Prod.mk.inj (List.mem_singleton.mp hlink)
      rw [h.down q hq] at hfind
      obtain rfl := Option.some.inj hfind
      exact ⟨_, by rw [h.root_chans]; rfl, rfl, hq⟩
  sinks p ch hch := by
    obtain ⟨-, rfl⟩ | ⟨-, rfl⟩ := h.mem_sinks hch
    · simp
    · simp
  srcs q src hsrc := by
    obtain ⟨-, rfl⟩ | ⟨-, rfl⟩ := h.mem_srcs hsrc
    · simp
    · simp

theorem oneToOne (h : Star conf dtype root l) : conf.OneToOne := by
  intro p ch hch hrole q hq q' hq'
  obtain ⟨-, rfl⟩ | ⟨-, rfl⟩ := h.mem_sinks hch
  · cases hrole
  · rw [List.mem_singleton.mp hq, List.mem_singleton.mp hq']

theorem ne_root (h : Star conf dtype root l) {q : ℤ} (hq : q ∈ l) : q ≠ root := by
  rintro rfl
  exact h.root_not_mem hq

theorem apart (h : Star conf dtype root l) : conf.Apart := by
  intro q x hx
  obtain ⟨src, hsrc, hx⟩ := List.mem_flatMap.mp hx
  obtain ⟨rfl, rfl⟩ | ⟨hq, rfl⟩ := h.mem_srcs hsrc
  · obtain ⟨p, hp, rfl⟩ := List.mem_map.mp hx
    exact h.ne_root hp
  · rw [List.mem_singleton.mp hx]
    exact (h.ne_root hq).symm

end Star

end Libdsys
