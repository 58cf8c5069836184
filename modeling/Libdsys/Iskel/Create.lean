import Libdsys.Branch.Iface
import Libdsys.Branch.Plist
import Libdsys.Ltab.Tags

/-!
# Iskel/Create — skeletons meet in the middle

The skeletons of `iskel.c` are created by all processes with one program: each takes the branch of
its own place in the process list, and makes the sources and sinks of that place.  Nothing is said
to the others, so the ends of an edge find each other by their tags alone — which are right because
every call makes as many sinks from `p` to `q` at `p` as sources of `q` from `p` at `q`, in one
order.

* `SkelCall.creations` — what one process makes in a call.
* `SkelCall.sinkTo_eq_srcFrom` — one call, from both ends of an edge.
* `skeletons_match` — any sequence of calls.
-/

namespace Libdsys

/-! ## The calls -/

/-- Which edges of a topology a channel is for. -/
inductive SkelEdge
  /-- From the `i`-th stage of a pipeline to the next. -/
  | stage (i : ℕ)
  /-- From the root of an all-to-all, or the farmer, to the others. -/
  | scatter
  /-- From the others to it. -/
  | gather
deriving Repr, DecidableEq

/-- A call of `bc_src_create` or `bc_sink_create`, with the edges it is for. -/
inductive Creation
  | src (edge : SkelEdge) (prod : Option Plist) (role : Role)
  | sink (edge : SkelEdge) (cons : Option Plist) (bunits : ℕ) (role : Role)
deriving Repr, DecidableEq

section Calls

variable (raw : ℤ) (bcRank : ℤ)

/-- `bc_plist_create(1, pl->plist[i])`. -/
def Plist.one (pl : Plist) (i : ℕ) : Option Plist :=
  pl.plist[i]?.bind fun rank => bcPlistCreate raw [rank]

/-- `iskel_pipe_create`; `given` is whether its other pointers are not `NULL`. -/
def iskelPipeCreate (pl : Plist) (given : Bool) (mc : Bool) : List Creation :=
  if ¬ pl.isvalid ∨ ¬ pl.iselem bcRank ∨ ¬ given then []
  else if pl.plist.length < 2 then []
  else
    let last := pl.plist.length - 1
    let i := pl.plist.idxOf bcRank
    let role := if mc then Role.pipe else Role.pipen
    let bunits := if mc then 7 else 10
    if i = 0 then [.sink (.stage i) (pl.one raw (i + 1)) bunits role]
    else if i = last then [.src (.stage (i - 1)) (pl.one raw (i - 1)) role]
    else
      [.src (.stage (i - 1)) (pl.one raw (i - 1)) role,
        .sink (.stage i) (pl.one raw (i + 1)) bunits role]

/-- The loop that finds the smallest rank. -/
def smallest : ℤ → List ℤ → ℤ
  | root, [] => root
  | root, rank :: ranks => smallest (if rank < root then rank else root) ranks

/-- `bc_plist_self`, made by hand where the library was not asked for it. -/
def bcPlistSelf : Plist := ⟨[bcRank], 0⟩

/-- `iskel_all2all_create`. -/
def iskelAll2allCreate (pl : Plist) : List Creation :=
  if ¬ pl.isvalid ∨ ¬ pl.iselem bcRank then []
  else
    match pl.plist with
    | [] => []
    | rank :: ranks =>
      let root := smallest rank ranks
      if bcRank = root then
        let plist := bcPlistDiff pl (bcPlistSelf bcRank)
        [.src .gather plist .collect, .sink .scatter plist pl.plist.length .replicate]
      else
        let plist := bcPlistCreate raw [root]
        [.src .scatter plist .pipe, .sink .gather plist 1 .pipe]

/-- `iskel_farm_create`. -/
def iskelFarmCreate (pl : Plist) (given : Bool) (mc : Bool) : List Creation :=
  if ¬ pl.isvalid ∨ ¬ pl.iselem bcRank ∨ ¬ given then []
  else if pl.plist.length < 2 then []
  else
    let num := pl.plist.length - 1
    if pl.plist.head? = some bcRank then
      let plist := bcPlistDiff pl (bcPlistSelf bcRank)
      [.src .gather plist .collect, .sink .scatter plist num .spread]
    else
      let plist := pl.one raw 0
      if mc then [.src .scatter plist .pipe, .sink .gather plist 1 .pipe]
      else [.src .scatter plist .pipe, .sink .gather plist 2 .pipen]

end Calls

/-- The three skeletons, with `mc` where they have it and whether their other pointers are given. -/
inductive Skeleton
  | pipe (given mc : Bool)
  | all2all
  | farm (given mc : Bool)
deriving Repr, DecidableEq

/-- A call, as all processes make it. -/
structure SkelCall where
  skeleton : Skeleton
  plist : List ℤ
  /-- The field `valid` of the list at each process: `bc_plist_create` does not set it. -/
  valid : ℤ → ℤ
  /-- What that of a new list happens to hold. -/
  raw : ℤ → ℤ

/-- **What the process `bcRank` makes in a call.** -/
def SkelCall.creations (call : SkelCall) (bcRank : ℤ) : List Creation :=
  let pl : Plist := ⟨call.plist, call.valid bcRank⟩
  match call.skeleton with
  | .pipe given mc => iskelPipeCreate (call.raw bcRank) bcRank pl given mc
  | .all2all => iskelAll2allCreate (call.raw bcRank) bcRank pl
  | .farm given mc => iskelFarmCreate (call.raw bcRank) bcRank pl given mc

/-- The edge to `q` that a sink is for. -/
def Creation.sinkTo (q : ℤ) : Creation → Option SkelEdge
  | .sink edge (some cons) _ _ => if q ∈ cons.plist then some edge else none
  | _ => none

/-- The edge from `p` that a source is for. -/
def Creation.srcFrom (p : ℤ) : Creation → Option SkelEdge
  | .src edge (some prod) _ => if p ∈ prod.plist then some edge else none
  | _ => none

section Edges

variable (p q : ℤ) (edge : SkelEdge) (pl : Plist) (bunits : ℕ) (role : Role)

@[simp] theorem sinkTo_src : (Creation.src edge (some pl) role).sinkTo q = none := rfl

@[simp] theorem sinkTo_sink : (Creation.sink edge (some pl) bunits role).sinkTo q =
    if q ∈ pl.plist then some edge else none := rfl

@[simp] theorem srcFrom_src : (Creation.src edge (some pl) role).srcFrom p =
    if p ∈ pl.plist then some edge else none := rfl

@[simp] theorem srcFrom_sink : (Creation.sink edge (some pl) bunits role).srcFrom p = none := rfl

end Edges

/-- The calls a program may make: over two ranks or more, each named once, in a list every one of
them finds valid. -/
structure SkelCall.Ok (call : SkelCall) : Prop where
  nodup : call.plist.Nodup
  two : 2 ≤ call.plist.length
  valid : ∀ rank ∈ call.plist, call.valid rank = 0

/-- The process a star has in its middle: the root of an all-to-all, or the farmer. -/
def SkelCall.Centre (call : SkelCall) (r : ℤ) : Prop :=
  match call.skeleton with
  | .pipe _ _ => False
  | .all2all => r ∈ call.plist ∧ ∀ rank ∈ call.plist, r ≤ rank
  | .farm _ _ => call.plist.head? = some r

/-- **The topology of a call**: which edges lead from `p` to `q`. -/
def SkelCall.Joins (call : SkelCall) (p q : ℤ) : SkelEdge → Prop
  | .stage i => (∃ given mc, call.skeleton = .pipe given mc) ∧
    call.plist[i]? = some p ∧ call.plist[i + 1]? = some q
  | .scatter => call.Centre p ∧ q ∈ call.plist ∧ p ≠ q
  | .gather => call.Centre q ∧ p ∈ call.plist ∧ p ≠ q

/-! ## One call -/

variable {p q : ℤ} {call : SkelCall} {raw : ℤ → ℤ}

theorem smallest_mem (root : ℤ) (ranks : List ℤ) : smallest root ranks ∈ root :: ranks := by
  induction ranks generalizing root with
  | nil => exact List.mem_cons_self
  | cons rank ranks ih =>
    rw [smallest]
    split
    · exact List.mem_cons_of_mem _ (ih rank)
    · rcases List.mem_cons.mp (ih root) with h | h
      · rw [h]
        exact List.mem_cons_self
      · exact List.mem_cons_of_mem _ (List.mem_cons_of_mem _ h)

theorem smallest_le (root : ℤ) (ranks : List ℤ) :
    ∀ rank ∈ root :: ranks, smallest root ranks ≤ rank := by
  induction ranks generalizing root with
  | nil => simp [smallest]
  | cons rank ranks ih =>
    intro x hx
    rw [smallest]
    by_cases hlt : rank < root
    · rw [if_pos hlt]
      have hrank := ih rank rank List.mem_cons_self
      rcases List.mem_cons.mp hx with rfl | hx
      · omega
      · exact ih rank x hx
    · rw [if_neg hlt]
      have hroot := ih root root List.mem_cons_self
      rcases List.mem_cons.mp hx with rfl | hx
      · exact hroot
      · rcases List.mem_cons.mp hx with rfl | hx
        · omega
        · exact ih root x (List.mem_cons_of_mem _ hx)

/-- A list of one entry of another. -/
theorem Plist.one_eq {pl : Plist} {i : ℕ} {rank : ℤ} (valid : ℤ)
    (h : pl.plist[i]? = some rank) : pl.one valid i = some ⟨[rank], valid⟩ := by
  rw [Plist.one, h]
  rfl

/-- **A star**: the centre and the others make two channels each, in opposite roles. -/
structure IsStar (raw : ℤ → ℤ) (r : ℤ) (l : List ℤ) (creations : ℤ → List Creation) : Prop where
  centre_mem : r ∈ l
  outside : ∀ p ∉ l, creations p = []
  centre : ∃ prodRole consRole bunits, creations r =
    [.src .gather (some ⟨l.filter (· ∉ [r]), 0⟩) prodRole,
      .sink .scatter (some ⟨l.filter (· ∉ [r]), 0⟩) bunits consRole]
  other : ∀ p ∈ l, p ≠ r → ∃ prodRole consRole bunits, creations p =
    [.src .scatter (some ⟨[r], raw p⟩) prodRole, .sink .gather (some ⟨[r], raw p⟩) bunits consRole]

theorem IsStar.sinkTo_eq {r : ℤ} {l : List ℤ} {creations : ℤ → List Creation}
    (h : IsStar raw r l creations) (p q : ℤ) : (creations p).filterMap (Creation.sinkTo q) =
      if p ∈ l ∧ q ∈ l ∧ p ≠ q then if p = r then [.scatter] else if q = r then [.gather] else []
      else [] := by
  by_cases hp : p ∈ l
  · by_cases hpr : p = r
    · obtain ⟨_, _, _, hcentre⟩ := h.centre
      rw [hpr, hcentre]
      by_cases hq : q ∈ l
      · by_cases hqr : q = r
        · simp [hqr]
        · simp [List.filterMap_cons, hq, hqr, h.centre_mem, Ne.symm hqr]
      · simp [hq]
    · obtain ⟨_, _, _, hother⟩ := h.other p hp hpr
      rw [hother]
      by_cases hqr : q = r
      · simp [List.filterMap_cons, hqr, hp, hpr, h.centre_mem]
      · simp [hpr, hqr]
  · simp [h.outside p hp, hp]

theorem IsStar.srcFrom_eq {r : ℤ} {l : List ℤ} {creations : ℤ → List Creation}
    (h : IsStar raw r l creations) (p q : ℤ) : (creations q).filterMap (Creation.srcFrom p) =
      if p ∈ l ∧ q ∈ l ∧ p ≠ q then if p = r then [.scatter] else if q = r then [.gather] else []
      else [] := by
  by_cases hq : q ∈ l
  · by_cases hqr : q = r
    · obtain ⟨_, _, _, hcentre⟩ := h.centre
      rw [hqr, hcentre]
      by_cases hp : p ∈ l
      · by_cases hpr : p = r
        · simp [hpr]
        · simp [hp, hpr, h.centre_mem]
      · simp [hp]
    · obtain ⟨_, _, _, hother⟩ := h.other q hq hqr
      rw [hother]
      by_cases hpr : p = r
      · simp [hpr, hq, h.centre_mem, Ne.symm hqr]
      · simp [hpr, hqr]
  · simp [h.outside q hq, hq]

/-- A star has an edge to its centre and one from it for each of the others. -/
theorem IsStar.joins {r : ℤ} {creations : ℤ → List Creation}
    (h : IsStar raw r call.plist creations) (hcentre : call.Centre r) {edge : SkelEdge}
    (hedge : edge ∈ (creations p).filterMap (Creation.sinkTo q)) : call.Joins p q edge := by
  rw [h.sinkTo_eq] at hedge
  split at hedge
  case isFalse => cases hedge
  case isTrue hpq =>
    obtain ⟨hp, hq, hne⟩ := hpq
    split at hedge
    case isTrue hpr =>
      obtain rfl := List.mem_singleton.mp hedge
      exact ⟨hpr ▸ hcentre, hq, hne⟩
    case isFalse hpr =>
      split at hedge
      case isTrue hqr =>
        obtain rfl := List.mem_singleton.mp hedge
        exact ⟨hqr ▸ hcentre, hp, hne⟩
      case isFalse => cases hedge

/-- The test every call starts with. -/
theorem SkelCall.Ok.participates (h : call.Ok) (hp : p ∈ call.plist) :
    ¬(¬ (⟨call.plist, call.valid p⟩ : Plist).isvalid ∨
      ¬ (⟨call.plist, call.valid p⟩ : Plist).iselem p) := by
  simp [Plist.isvalid, Plist.iselem, h.valid p hp, hp]

theorem SkelCall.Ok.exists_cons (h : call.Ok) : ∃ rank ranks, call.plist = rank :: ranks :=
  List.exists_cons_of_length_pos (Nat.zero_lt_of_lt h.two)

/-- What the processes make in an all-to-all. -/
theorem creations_all2all (h : call.Ok) (hskel : call.skeleton = .all2all) {rank : ℤ}
    {ranks : List ℤ} (hplist : call.plist = rank :: ranks) :
    call.creations (smallest rank ranks) =
      [.src .gather (some ⟨call.plist.filter (· ∉ [smallest rank ranks]), 0⟩) .collect,
        .sink .scatter (some ⟨call.plist.filter (· ∉ [smallest rank ranks]), 0⟩)
          call.plist.length .replicate] ∧
    (∀ p ∈ call.plist, p ≠ smallest rank ranks → call.creations p =
      [.src .scatter (some ⟨[smallest rank ranks], call.raw p⟩) .pipe,
        .sink .gather (some ⟨[smallest rank ranks], call.raw p⟩) 1 .pipe]) ∧
    ∀ p ∉ call.plist, call.creations p = [] := by
  obtain ⟨skeleton, plist, valid, raw⟩ := call
  obtain rfl : skeleton = .all2all := hskel
  obtain rfl : plist = rank :: ranks := hplist
  have hmem := smallest_mem rank ranks
  refine ⟨(if_neg (h.participates hmem)).trans ((if_pos rfl).trans ?_), fun p hp hne => ?_,
    fun p hp => ?_⟩
  · dsimp only
    rw [bcPlistDiff_eq (h.valid _ hmem) rfl h.nodup]
    rfl
  · exact (if_neg (h.participates hp)).trans (if_neg hne)
  · exact if_pos (.inr (by simpa [Plist.iselem] using hp))

theorem SkelCall.centre_smallest (hskel : call.skeleton = .all2all) {rank : ℤ} {ranks : List ℤ}
    (hplist : call.plist = rank :: ranks) : call.Centre (smallest rank ranks) := by
  rw [Centre, hskel, hplist]
  exact ⟨smallest_mem rank ranks, smallest_le rank ranks⟩

theorem isStar_all2all (h : call.Ok) (hskel : call.skeleton = .all2all) :
    ∃ r, call.Centre r ∧ IsStar call.raw r call.plist call.creations := by
  obtain ⟨rank, ranks, hplist⟩ := h.exists_cons
  obtain ⟨hcentre, hother, houtside⟩ := creations_all2all h hskel hplist
  refine ⟨_, SkelCall.centre_smallest hskel hplist, hplist ▸ smallest_mem rank ranks, houtside,
    ⟨_, _, _, hcentre⟩, fun p hp hne => ⟨_, _, _, hother p hp hne⟩⟩

theorem isStar_farm {given mc : Bool} (h : call.Ok) (hskel : call.skeleton = .farm given mc)
    (hgiven : given = true) :
    ∃ r, call.Centre r ∧ IsStar call.raw r call.plist call.creations := by
  obtain ⟨skeleton, plist, valid, raw⟩ := call
  obtain rfl : skeleton = .farm given mc := hskel
  subst hgiven
  cases plist with
  | nil => exact absurd h.two (by simp)
  | cons rank ranks =>
    have hmem : rank ∈ rank :: ranks := List.mem_cons_self
    have htest : ∀ p ∈ rank :: ranks,
        SkelCall.creations ⟨.farm true mc, rank :: ranks, valid, raw⟩ p =
        if some rank = some p then
          let plist := bcPlistDiff ⟨rank :: ranks, valid p⟩ (bcPlistSelf p)
          [.src .gather plist .collect, .sink .scatter plist ranks.length .spread]
        else
          let plist := some ⟨[rank], raw p⟩
          if mc then [.src .scatter plist .pipe, .sink .gather plist 1 .pipe]
          else [.src .scatter plist .pipe, .sink .gather plist 2 .pipen] := by
      intro p hp
      have hnot := h.participates hp
      refine (if_neg ?_).trans ((if_neg (not_lt.mpr h.two)).trans rfl)
      rintro (hvalid | helem | hgiven)
      · exact hnot (.inl hvalid)
      · exact hnot (.inr helem)
      · exact hgiven rfl
    refine ⟨rank, rfl, hmem, fun p hp => ?_, ?_, fun p hp hne => ?_⟩
    · exact if_pos (.inr (.inl (by simpa [Plist.iselem] using hp)))
    · refine ⟨.collect, .spread, ranks.length, (htest rank hmem).trans ((if_pos rfl).trans ?_)⟩
      dsimp only
      rw [bcPlistDiff_eq (h.valid _ hmem) rfl h.nodup]
      rfl
    · rw [htest p hp, if_neg fun heq => hne (Option.some.inj heq).symm]
      cases mc
      · exact ⟨.pipe, .pipen, 2, rfl⟩
      · exact ⟨.pipe, .pipe, 1, rfl⟩

section Pipe

variable {mc : Bool} {plist : List ℤ} {valid : ℤ → ℤ}

/-- What a stage of a pipeline makes, by its place. -/
theorem pipe_eq (h : SkelCall.Ok ⟨.pipe true mc, plist, valid, raw⟩) {i : ℕ}
    (hi : i < plist.length) :
    SkelCall.creations ⟨.pipe true mc, plist, valid, raw⟩ plist[i] =
      (if i = 0 then [] else
        [.src (.stage (i - 1)) (some ⟨[plist.getD (i - 1) 0], raw plist[i]⟩)
          (if mc then .pipe else .pipen)]) ++
      if i + 1 = plist.length then [] else
        [.sink (.stage i) (some ⟨[plist.getD (i + 1) 0], raw plist[i]⟩) (if mc then 7 else 10)
          (if mc then .pipe else .pipen)] := by
  have hnot := h.participates (List.getElem_mem hi)
  have htwo := h.two
  have hpl : ¬(¬ (⟨plist, valid plist[i]⟩ : Plist).isvalid ∨
      ¬ (⟨plist, valid plist[i]⟩ : Plist).iselem plist[i] ∨ ¬ (true : Bool)) := by
    rintro (hvalid | helem | hgiven)
    · exact hnot (.inl hvalid)
    · exact hnot (.inr helem)
    · exact hgiven rfl
  have hidx : plist.idxOf plist[i] = i := h.nodup.idxOf_getElem i hi
  have hone : ∀ j < plist.length, (⟨plist, valid plist[i]⟩ : Plist).one (raw plist[i]) j =
      some ⟨[plist.getD j 0], raw plist[i]⟩ := fun j hj => by
    rw [Plist.one_eq _ (List.getElem?_eq_getElem hj), List.getD_eq_getElem?_getD,
      List.getElem?_eq_getElem hj, Option.getD_some]
  refine (if_neg hpl).trans ((if_neg (not_lt.mpr htwo)).trans ?_)
  dsimp only
  rw [hidx]
  by_cases hfirst : i = 0
  · have hlast : i + 1 ≠ plist.length := by
      change 2 ≤ plist.length at htwo
      omega
    rw [if_pos hfirst, if_pos hfirst, if_neg hlast, hone (i + 1) (by omega)]
    rfl
  · rw [if_neg hfirst, if_neg hfirst, hone (i - 1) (by omega)]
    by_cases hlast : i + 1 = plist.length
    · rw [if_pos (by omega), if_pos hlast, List.append_nil]
    · rw [if_neg (by omega), if_neg hlast, hone (i + 1) (by omega)]
      rfl

theorem pipe_outside (hp : p ∉ plist) :
    SkelCall.creations ⟨.pipe true mc, plist, valid, raw⟩ p = [] :=
  if_pos (.inr (.inl (by simpa [Plist.iselem] using hp)))

theorem pipe_sinkTo (h : SkelCall.Ok ⟨.pipe true mc, plist, valid, raw⟩) {i : ℕ}
    (hi : i < plist.length) (q : ℤ) :
    (SkelCall.creations ⟨.pipe true mc, plist, valid, raw⟩ plist[i]).filterMap (Creation.sinkTo q) =
      if plist[i + 1]? = some q then [.stage i] else [] := by
  rw [pipe_eq h hi, List.filterMap_append]
  have hsrc : (if i = 0 then [] else [Creation.src (.stage (i - 1))
      (some ⟨[plist.getD (i - 1) 0], raw plist[i]⟩) (if mc then .pipe else .pipen)]).filterMap
        (Creation.sinkTo q) = [] := by
    split <;> simp
  rw [hsrc, List.nil_append]
  by_cases hlast : i + 1 = plist.length
  · rw [if_pos hlast, List.getElem?_eq_none hlast.ge]
    rfl
  · rw [if_neg hlast, List.getD_eq_getElem?_getD, List.getElem?_eq_getElem (by omega)]
    by_cases hq : plist[i + 1] = q
    · simp [hq]
    · simp [hq, Ne.symm hq]

theorem pipe_srcFrom (h : SkelCall.Ok ⟨.pipe true mc, plist, valid, raw⟩) {j : ℕ}
    (hj : j < plist.length) (p : ℤ) :
    (SkelCall.creations ⟨.pipe true mc, plist, valid, raw⟩ plist[j]).filterMap
        (Creation.srcFrom p) =
      if 0 < j ∧ plist[j - 1]? = some p then [.stage (j - 1)] else [] := by
  rw [pipe_eq h hj, List.filterMap_append]
  have hsink : (if j + 1 = plist.length then [] else [Creation.sink (.stage j)
      (some ⟨[plist.getD (j + 1) 0], raw plist[j]⟩) (if mc then 7 else 10)
        (if mc then .pipe else .pipen)]).filterMap (Creation.srcFrom p) = [] := by
    split <;> simp
  rw [hsink, List.append_nil]
  by_cases hfirst : j = 0
  · rw [if_pos hfirst, if_neg fun hpos => hpos.1.ne' hfirst]
    rfl
  · rw [if_neg hfirst, List.getD_eq_getElem?_getD, List.getElem?_eq_getElem (by omega)]
    by_cases hp : plist[j - 1] = p
    · simp [hp, Nat.pos_of_ne_zero hfirst]
    · simp [hp, Ne.symm hp]

/-- **A pipeline, from both ends of an edge.** -/
theorem pipe_sinkTo_eq_srcFrom (h : SkelCall.Ok ⟨.pipe true mc, plist, valid, raw⟩) (p q : ℤ) :
    (SkelCall.creations ⟨.pipe true mc, plist, valid, raw⟩ p).filterMap (Creation.sinkTo q) =
      (SkelCall.creations ⟨.pipe true mc, plist, valid, raw⟩ q).filterMap (Creation.srcFrom p) := by
  by_cases hp : p ∈ plist
  · obtain ⟨i, hi, rfl⟩ := List.getElem_of_mem hp
    rw [pipe_sinkTo h hi]
    by_cases hq : q ∈ plist
    · obtain ⟨j, hj, rfl⟩ := List.getElem_of_mem hq
      rw [pipe_srcFrom h hj]
      by_cases hedge : j = i + 1
      · subst hedge
        rw [if_pos (List.getElem?_eq_getElem hj), Nat.add_sub_cancel,
          if_pos ⟨Nat.succ_pos i, List.getElem?_eq_getElem hi⟩]
      · rw [if_neg fun heq => hedge ?_, if_neg fun heq => hedge ?_]
        · obtain ⟨hi', heq'⟩ := List.getElem?_eq_some_iff.mp heq.2
          have := (h.nodup.getElem_inj_iff).mp heq'
          omega
        · obtain ⟨hi', heq'⟩ := List.getElem?_eq_some_iff.mp heq
          exact ((h.nodup.getElem_inj_iff).mp heq').symm
    · rw [pipe_outside hq, if_neg fun heq => hq (List.mem_of_getElem? heq)]
      rfl
  · rw [pipe_outside hp]
    by_cases hq : q ∈ plist
    · obtain ⟨j, hj, rfl⟩ := List.getElem_of_mem hq
      rw [pipe_srcFrom h hj, if_neg fun heq => hp (List.mem_of_getElem? heq.2)]
      rfl
    · rw [pipe_outside hq]
      rfl

end Pipe

theorem pipe_not_given {mc : Bool} {plist : List ℤ} {valid : ℤ → ℤ} (p : ℤ) :
    SkelCall.creations ⟨.pipe false mc, plist, valid, raw⟩ p = [] :=
  if_pos (.inr (.inr Bool.false_ne_true))

theorem farm_not_given {mc : Bool} {plist : List ℤ} {valid : ℤ → ℤ} (p : ℤ) :
    SkelCall.creations ⟨.farm false mc, plist, valid, raw⟩ p = [] :=
  if_pos (.inr (.inr Bool.false_ne_true))

/-- **One call, from both ends**: the sinks to `q` that `p` makes in a call are for the edges that
the sources from `p` are for, which `q` makes. -/
theorem SkelCall.sinkTo_eq_srcFrom (h : call.Ok) (p q : ℤ) :
    (call.creations p).filterMap (Creation.sinkTo q) =
      (call.creations q).filterMap (Creation.srcFrom p) := by
  obtain ⟨skeleton, plist, valid, raw⟩ := call
  cases skeleton with
  | pipe given mc =>
    cases given with
    | true => exact pipe_sinkTo_eq_srcFrom h p q
    | false =>
      rw [pipe_not_given, pipe_not_given]
      rfl
  | all2all =>
    obtain ⟨r, -, hstar⟩ := isStar_all2all h rfl
    exact (hstar.sinkTo_eq p q).trans (hstar.srcFrom_eq p q).symm
  | farm given mc =>
    cases given with
    | true =>
      obtain ⟨r, -, hstar⟩ := isStar_farm h rfl rfl
      exact (hstar.sinkTo_eq p q).trans (hstar.srcFrom_eq p q).symm
    | false =>
      rw [farm_not_given, farm_not_given]
      rfl

/-- **The sinks to `q` that `p` makes in a call are for edges from `p` to `q`.** -/
theorem SkelCall.joins (h : call.Ok) {edge : SkelEdge}
    (hedge : edge ∈ (call.creations p).filterMap (Creation.sinkTo q)) : call.Joins p q edge := by
  cases hskel : call.skeleton with
  | all2all =>
    obtain ⟨r, hcentre, hstar⟩ := isStar_all2all h hskel
    exact hstar.joins hcentre hedge
  | farm given mc =>
    cases given with
    | true =>
      obtain ⟨r, hcentre, hstar⟩ := isStar_farm h hskel rfl
      exact hstar.joins hcentre hedge
    | false =>
      obtain ⟨skeleton, plist, valid, raw⟩ := call
      obtain rfl : skeleton = .farm false mc := hskel
      rw [farm_not_given] at hedge
      cases hedge
  | pipe given mc =>
    obtain ⟨skeleton, plist, valid, raw⟩ := call
    obtain rfl : skeleton = .pipe given mc := hskel
    cases given with
    | false =>
      rw [pipe_not_given] at hedge
      cases hedge
    | true =>
      by_cases hp : p ∈ plist
      · obtain ⟨i, hi, rfl⟩ := List.getElem_of_mem hp
        rw [pipe_sinkTo h hi] at hedge
        split at hedge
        case isTrue hq =>
          obtain rfl := List.mem_singleton.mp hedge
          exact ⟨⟨true, mc, rfl⟩, List.getElem?_eq_getElem hi, hq⟩
        case isFalse => cases hedge
      · rw [pipe_outside hp] at hedge
        cases hedge

/-! ## Any sequence of calls -/

/-- A channel that was made, and for what. -/
structure Made where
  /-- The number of the call. -/
  inst : ℕ
  edge : SkelEdge
  plist : List ℤ
deriving Repr, DecidableEq

/-- A process, and what its channels were made for. -/
structure Skeletons where
  proc : Proc ℤ
  sinks : List Made
  srcs : List Made

/-- The loop of `__bc_link_insert`. -/
def linkInsertAll : List (ℤ × Link) → Proc ℤ → Proc ℤ
  | [], proc => proc
  | (rank, link) :: rest, proc => linkInsertAll rest (linkInsert proc rank link rest)

/-- `bc_sink_create` or `bc_src_create`, which refuses to go without a list. -/
def Skeletons.create (inst : ℕ) (s : Skeletons) : Creation → Skeletons
  | .sink edge (some cons) _ _ =>
    let proc := bcSinkCreate s.proc cons.plist
    { s with
      proc := linkInsertAll proc.inserting proc
      sinks := s.sinks ++ [⟨inst, edge, cons.plist⟩] }
  | .src edge (some prod) _ =>
    { s with
      proc := bcSrcCreate s.proc prod.plist
      srcs := s.srcs ++ [⟨inst, edge, prod.plist⟩] }
  | .sink _ none _ _ => s
  | .src _ none _ => s

/-- **The program of process `bcRank`**: the calls, from number `inst` on. -/
def createAll (bcRank : ℤ) : ℕ → List SkelCall → Skeletons → Skeletons
  | _, [], s => s
  | inst, call :: calls, s =>
    createAll bcRank (inst + 1) calls ((call.creations bcRank).foldl (Skeletons.create inst) s)

/-- The call and the edge a channel is for, if it names `r`. -/
def Made.naming (r : ℤ) (m : Made) : Option (ℕ × SkelEdge) :=
  if r ∈ m.plist then some (m.inst, m.edge) else none

/-- The list a channel is made over. -/
def Creation.peers : Creation → List ℤ
  | .sink _ (some pl) _ _ => pl.plist
  | .src _ (some pl) _ => pl.plist
  | .sink _ none _ _ => []
  | .src _ none _ => []

/-! ### What is made names each peer once -/

theorem IsStar.peers_nodup {r : ℤ} {l : List ℤ} {creations : ℤ → List Creation}
    (h : IsStar raw r l creations) (hnodup : l.Nodup) (p : ℤ) :
    ∀ c ∈ creations p, c.peers.Nodup := by
  by_cases hp : p ∈ l
  · by_cases hpr : p = r
    · obtain ⟨_, _, _, hcentre⟩ := h.centre
      rw [hpr, hcentre]
      simpa [Creation.peers] using hnodup.filter _
    · obtain ⟨_, _, _, hother⟩ := h.other p hp hpr
      rw [hother]
      simp [Creation.peers]
  · rw [h.outside p hp]
    nofun

theorem SkelCall.peers_nodup (h : call.Ok) (p : ℤ) : ∀ c ∈ call.creations p, c.peers.Nodup := by
  obtain ⟨skeleton, plist, valid, raw⟩ := call
  cases skeleton with
  | pipe given mc =>
    cases given with
    | true =>
      by_cases hp : p ∈ plist
      · obtain ⟨i, hi, rfl⟩ := List.getElem_of_mem hp
        rw [pipe_eq h hi]
        intro c hc
        rcases List.mem_append.mp hc with hc | hc
        · split at hc
          · cases hc
          · rw [List.mem_singleton.mp hc]
            exact List.nodup_singleton _
        · split at hc
          · cases hc
          · rw [List.mem_singleton.mp hc]
            exact List.nodup_singleton _
      · rw [pipe_outside hp]
        nofun
    | false =>
      rw [pipe_not_given]
      nofun
  | all2all =>
    obtain ⟨r, -, hstar⟩ := isStar_all2all h rfl
    exact hstar.peers_nodup h.nodup p
  | farm given mc =>
    cases given with
    | true =>
      obtain ⟨r, -, hstar⟩ := isStar_farm h rfl rfl
      exact hstar.peers_nodup h.nodup p
    | false =>
      rw [farm_not_given]
      nofun

/-! ### What is kept of a process -/

/-- The channels of a process are those that were made. -/
structure Skeletons.Wf (s : Skeletons) : Prop where
  proc : s.proc.Wf
  inserting : s.proc.inserting = []
  sinks : s.proc.sinks.map Chan.plist = s.sinks.map Made.plist
  srcs : s.proc.srcs.map Chan.plist = s.srcs.map Made.plist

theorem linkInsertAll_spec {proc : Proc ℤ} (h : proc.Wf) {ls : List (ℤ × Link)}
    (hls : proc.inserting = ls) : (linkInsertAll ls proc).Wf ∧
      (linkInsertAll ls proc).inserting = [] ∧ (linkInsertAll ls proc).sinks = proc.sinks ∧
      (linkInsertAll ls proc).srcs = proc.srcs := by
  induction ls generalizing proc with
  | nil => exact ⟨h, hls, rfl, rfl⟩
  | cons x ls ih => exact ih (h.linkInsert hls) rfl

theorem Skeletons.Wf.create {s : Skeletons} (h : s.Wf) (inst : ℕ) {c : Creation}
    (hc : c.peers.Nodup) : (s.create inst c).Wf := by
  rcases c with ⟨edge, _ | prod, role⟩ | ⟨edge, _ | cons, bunits, role⟩
  · exact h
  · refine ⟨h.proc.bcSrcCreate hc, h.inserting, h.sinks, ?_⟩
    change (s.proc.srcs ++ [_]).map Chan.plist = (s.srcs ++ [_]).map Made.plist
    rw [List.map_append, List.map_append, h.srcs]
    rfl
  · exact h
  · obtain ⟨hproc, hins, hsinks, hsrcs⟩ :=
      linkInsertAll_spec (h.proc.bcSinkCreate h.inserting hc) rfl
    refine ⟨hproc, hins, ?_, (congrArg (List.map Chan.plist) hsrcs).trans h.srcs⟩
    refine (congrArg (List.map Chan.plist) hsinks).trans ?_
    change (s.proc.sinks ++ [_]).map Chan.plist = (s.sinks ++ [_]).map Made.plist
    rw [List.map_append, List.map_append, h.sinks]
    rfl

theorem Skeletons.Wf.foldl {s : Skeletons} (h : s.Wf) (inst : ℕ) {cs : List Creation}
    (hcs : ∀ c ∈ cs, c.peers.Nodup) : (cs.foldl (Skeletons.create inst) s).Wf := by
  induction cs generalizing s with
  | nil => exact h
  | cons c cs ih =>
    exact ih (h.create inst (hcs c List.mem_cons_self)) fun c' hc =>
      hcs c' (List.mem_cons_of_mem _ hc)

theorem wf_createAll {s : Skeletons} (h : s.Wf) {calls : List SkelCall} (hcalls : ∀ c ∈ calls, c.Ok)
    (p : ℤ) (inst : ℕ) : (createAll p inst calls s).Wf := by
  induction calls generalizing s inst with
  | nil => exact h
  | cons call calls ih =>
    exact ih (h.foldl inst (SkelCall.peers_nodup (hcalls call List.mem_cons_self) p))
      (fun c hc => hcalls c (List.mem_cons_of_mem _ hc)) (inst + 1)

/-! ### Both ends of every edge -/

theorem naming_sinks_foldl (q : ℤ) (inst : ℕ) (cs : List Creation) (s : Skeletons) :
    (cs.foldl (Skeletons.create inst) s).sinks.filterMap (Made.naming q) =
      s.sinks.filterMap (Made.naming q) ++ (cs.filterMap (Creation.sinkTo q)).map (inst, ·) := by
  induction cs generalizing s with
  | nil => simp
  | cons c cs ih =>
    rw [List.foldl_cons, ih]
    rcases c with ⟨edge, _ | prod, role⟩ | ⟨edge, _ | cons, bunits, role⟩
    · rfl
    · rfl
    · rfl
    · change (s.sinks ++ [_]).filterMap _ ++ _ = _
      by_cases hq : q ∈ cons.plist
      · simp [Made.naming, hq]
      · simp [Made.naming, hq]

theorem naming_srcs_foldl (p : ℤ) (inst : ℕ) (cs : List Creation) (s : Skeletons) :
    (cs.foldl (Skeletons.create inst) s).srcs.filterMap (Made.naming p) =
      s.srcs.filterMap (Made.naming p) ++ (cs.filterMap (Creation.srcFrom p)).map (inst, ·) := by
  induction cs generalizing s with
  | nil => simp
  | cons c cs ih =>
    rw [List.foldl_cons, ih]
    rcases c with ⟨edge, _ | prod, role⟩ | ⟨edge, _ | cons, bunits, role⟩
    · rfl
    · change (s.srcs ++ [_]).filterMap _ ++ _ = _
      by_cases hp : p ∈ prod.plist
      · simp [Made.naming, hp]
      · simp [Made.naming, hp]
    · rfl
    · rfl

/-- **The sinks to `q` that `p` made are for the edges that the sources from `p` are for.** -/
theorem naming_createAll {calls : List SkelCall} (hcalls : ∀ c ∈ calls, c.Ok) (p q : ℤ)
    {s t : Skeletons} (inst : ℕ)
    (h : s.sinks.filterMap (Made.naming q) = t.srcs.filterMap (Made.naming p)) :
    (createAll p inst calls s).sinks.filterMap (Made.naming q) =
      (createAll q inst calls t).srcs.filterMap (Made.naming p) := by
  induction calls generalizing s t inst with
  | nil => exact h
  | cons call calls ih =>
    refine ih (fun c hc => hcalls c (List.mem_cons_of_mem _ hc)) (inst + 1) ?_
    rw [naming_sinks_foldl, naming_srcs_foldl, h,
      SkelCall.sinkTo_eq_srcFrom (hcalls call List.mem_cons_self) p q]

/-- **What a sink to `q` is for**: an edge from `p` to `q` of the call it was made in. -/
theorem joins_createAll {calls : List SkelCall} (hcalls : ∀ c ∈ calls, c.Ok) {p q : ℤ}
    {s : Skeletons} {inst inst' : ℕ} {edge : SkelEdge}
    (h : (inst', edge) ∈ (createAll p inst calls s).sinks.filterMap (Made.naming q)) :
    (inst', edge) ∈ s.sinks.filterMap (Made.naming q) ∨
      ∃ call, calls[inst' - inst]? = some call ∧ inst ≤ inst' ∧ call.Joins p q edge := by
  induction calls generalizing s inst with
  | nil => exact .inl h
  | cons call calls ih =>
    obtain hold | ⟨call', hcall', hle, hjoins⟩ :=
      ih (fun c hc => hcalls c (List.mem_cons_of_mem _ hc)) h
    · rw [naming_sinks_foldl] at hold
      rcases List.mem_append.mp hold with hold | hnew
      · exact .inl hold
      · obtain ⟨edge', hedge', heq⟩ := List.mem_map.mp hnew
        obtain ⟨rfl, rfl⟩ := Prod.mk.inj heq
        refine .inr ⟨call, by rw [Nat.sub_self]; rfl, le_rfl, ?_⟩
        exact SkelCall.joins (hcalls call List.mem_cons_self) hedge'
    · refine .inr ⟨call', ?_, by omega, hjoins⟩
      rwa [show inst' - inst = (inst' - (inst + 1)) + 1 by omega]

section Ordinals

variable {chans : List (Chan ℤ)} {ms : List Made} {r : ℤ} {k c : ℕ}

theorem length_naming (h : chans.map Chan.plist = ms.map Made.plist) (r : ℤ) :
    (ms.filterMap (Made.naming r)).length = naming chans r := by
  have hsome : ∀ m : Made, (m.naming r).isSome = decide (r ∈ m.plist) := fun m => by
    by_cases hr : r ∈ m.plist <;> simp [Made.naming, hr]
  calc (ms.filterMap (Made.naming r)).length
      = ms.countP fun m => decide (r ∈ m.plist) := by
        rw [List.length_filterMap_eq_countP]
        exact List.countP_congr fun m _ => by rw [hsome]
    _ = (ms.map Made.plist).countP fun l => decide (r ∈ l) := by
        rw [List.countP_map]
        rfl
    _ = (chans.map Chan.plist).countP fun l => decide (r ∈ l) := by rw [h]
    _ = naming chans r := by
        rw [List.countP_map]
        rfl

/-- The `k`-th channel that names `r` is the `k`-th of those made that do. -/
theorem IsNth.made (h : IsNth chans r k c) (hmade : chans.map Chan.plist = ms.map Made.plist) :
    ∃ m, ms[c]? = some m ∧ (ms.filterMap (Made.naming r))[k]? = some (m.inst, m.edge) := by
  obtain ⟨ch, hch, hr⟩ := h.named
  have hget : ms[c]?.map Made.plist = some ch.plist := by
    rw [← List.getElem?_map, ← hmade, List.getElem?_map, hch]
    rfl
  obtain ⟨m, hm, hplist⟩ := Option.map_eq_some_iff.mp hget
  refine ⟨m, hm, ?_⟩
  have htake : (chans.take c).map Chan.plist = (ms.take c).map Made.plist := by
    rw [List.map_take, List.map_take, hmade]
  have hbefore : ((ms.take c).filterMap (Made.naming r)).length = k :=
    (length_naming htake r).trans h.before
  have hsplit : ms = ms.take c ++ m :: ms.drop (c + 1) := by
    obtain ⟨hlt, hc⟩ := List.getElem?_eq_some_iff.mp hm
    rw [← hc, List.getElem_cons_drop, List.take_append_drop]
  rw [hsplit, List.filterMap_append, ← hbefore, List.getElem?_append_right le_rfl, Nat.sub_self]
  simp [Made.naming, hplist, hr]

/-- A channel's tag for `r` is its ordinal. -/
theorem IsNth.tag (h : IsNth chans r k c) (htagged : Tagged chans) :
    ∃ ch : Chan ℤ, chans[c]? = some ch ∧ ∀ i : ℕ, ch.plist[i]? = some r → ch.tags[i]? = some k := by
  obtain ⟨ch, hch, -⟩ := h.named
  refine ⟨ch, hch, fun i hi => ?_⟩
  rw [htagged c ch hch, List.getElem?_map, hi, Option.map_some, h.before]

end Ordinals

/-- A process that has created nothing. -/
def Skeletons.start : Skeletons := ⟨.start, [], []⟩

theorem wf_skeletons_start : Skeletons.start.Wf := ⟨wf_start, rfl, rfl, rfl⟩

/-- **Skeleton creation matches up.**  When `p` and `q` have gone through the same calls, `p` has
made as many sinks that name `q` as `q` sources that name `p`; and the `k`-th of these and the
`k`-th of those have the tag `k` for each other, and are for the same edge from `p` to `q` of the
same call. -/
theorem skeletons_match (calls : List SkelCall) (hcalls : ∀ call ∈ calls, call.Ok) (p q : ℤ) :
    let P := createAll p 0 calls .start
    let Q := createAll q 0 calls .start
    naming P.proc.sinks q = naming Q.proc.srcs p ∧
    ∀ k c d, IsNth P.proc.sinks q k c → IsNth Q.proc.srcs p k d →
      (∃ sink src call, P.sinks[c]? = some sink ∧ Q.srcs[d]? = some src ∧
        sink.inst = src.inst ∧ sink.edge = src.edge ∧
        calls[sink.inst]? = some call ∧ call.Joins p q sink.edge) ∧
      (∃ sink : Chan ℤ, P.proc.sinks[c]? = some sink ∧
        ∀ i : ℕ, sink.plist[i]? = some q → sink.tags[i]? = some k) ∧
      ∃ src : Chan ℤ, Q.proc.srcs[d]? = some src ∧
        ∀ i : ℕ, src.plist[i]? = some p → src.tags[i]? = some k := by
  have hP := wf_createAll wf_skeletons_start hcalls p 0
  have hQ := wf_createAll wf_skeletons_start hcalls q 0
  have hnaming := naming_createAll hcalls p q 0 (s := .start) (t := .start) rfl
  refine ⟨?_, fun k c d hc hd => ⟨?_, hc.tag hP.proc.sinks, hd.tag hQ.proc.srcs⟩⟩
  · rw [← length_naming hP.sinks, ← length_naming hQ.srcs, hnaming]
  · obtain ⟨sink, hsink, hk⟩ := hc.made hP.sinks
    obtain ⟨src, hsrc, hk'⟩ := hd.made hQ.srcs
    obtain hnil | ⟨call, hcall, -, hjoins⟩ := joins_createAll hcalls (List.mem_of_getElem? hk)
    · cases hnil
    rw [hnaming, hk', Option.some.injEq, Prod.mk.injEq] at hk
    exact ⟨sink, src, call, hsink, hsrc, hk.1.symm, hk.2.symm, hcall, hjoins⟩

/-- A pipeline, an all-to-all and a farm over three processes, as seen from 1 and 0. -/
theorem skeletons_match_three :
    naming (createAll 1 0 [⟨.pipe true true, [2, 1, 0], fun _ => 0, fun _ => 5⟩,
      ⟨.all2all, [2, 0, 1], fun _ => 0, fun _ => 5⟩,
      ⟨.farm true false, [0, 1], fun _ => 0, fun _ => 5⟩] .start).proc.sinks 0 =
    naming (createAll 0 0 [⟨.pipe true true, [2, 1, 0], fun _ => 0, fun _ => 5⟩,
      ⟨.all2all, [2, 0, 1], fun _ => 0, fun _ => 5⟩,
      ⟨.farm true false, [0, 1], fun _ => 0, fun _ => 5⟩] .start).proc.srcs 1 := by
  refine (skeletons_match _ (fun call hcall => ?_) 1 0).1
  simp only [List.mem_cons, List.not_mem_nil, or_false] at hcall
  rcases hcall with rfl | rfl | rfl
  · exact ⟨by decide, by decide, fun _ _ => rfl⟩
  · exact ⟨by decide, by decide, fun _ _ => rfl⟩
  · exact ⟨by decide, by decide, fun _ _ => rfl⟩

end Libdsys
