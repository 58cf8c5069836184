import Mathlib.Data.List.Nodup
import Libdsys.Machinery.Runs

/-!
# Ltab/Tags — a tag is an ordinal

The two ends of a channel never exchange names.  A sink draws a tag for each of its consumers from
the counter it keeps for that peer, a source one for each of its producers from another counter.
`IsNth` says what a tag is — the number of channels created before that name the same peer — and
that is all the two sides have to agree on.

* `drawTags_fst` / `drawTags_snd` — distinct ranks draw one tag each, from counters of their own.
* `Proc.Wf` — what each call keeps of one process: tags are ordinals, and no two links of a hook,
  inserted or not, have the same.

Tag counters are natural numbers: they are taken not to wrap.
-/

namespace Libdsys

variable {P : Type}

/-- An entry of a table by two peers. -/
theorem update_update_apply {γ : Type} [DecidableEq P] (f : P → P → γ) (p q : P) (v : γ)
    (p' q' : P) :
    Function.update f p (Function.update (f p) q v) p' q' =
      if p' = p ∧ q' = q then v else f p' q' := by
  rcases eq_or_ne p' p with rfl | hp
  · rw [Function.update_self, Function.update_apply]
    simp
  · rw [Function.update_of_ne hp, if_neg fun h => hp h.1]

/-! ## One process -/

/-- `bc_link_t`: its tag, and its channel by the channel's number among the sinks of the process. -/
structure Link where
  tag : ℕ
  channel : ℕ
deriving Repr, DecidableEq

/-- `bc_hook_t`: the links inserted for a peer, latest first, and the two counters. -/
structure Hook where
  links : List Link
  srcTag : ℕ
  sinkTag : ℕ
deriving Repr, DecidableEq

/-- `__bc_gtag`. -/
def gtag (h : Hook) : ℕ × Hook := (h.srcTag, { h with srcTag := h.srcTag + 1 })

/-- `__bc_ptag`. -/
def ptag (h : Hook) : ℕ × Hook := (h.sinkTag, { h with sinkTag := h.sinkTag + 1 })

/-- `bc_chan_t`: the peers it names, and a tag for each. -/
structure Chan (P : Type) where
  plist : List P
  tags : List ℕ

section Draw

variable [DecidableEq P]

/-- `for (i = 0; i < count; i++) tags[i] = draw(plist[i])`. -/
def drawTags (draw : Hook → ℕ × Hook) (ltab : P → Hook) : List P → List ℕ × (P → Hook)
  | [] => ([], ltab)
  | rank :: ranks =>
    let (tag, hook) := draw (ltab rank)
    let (tags, ltab) := drawTags draw (Function.update ltab rank hook) ranks
    (tag :: tags, ltab)

variable {draw : Hook → ℕ × Hook}

theorem drawTags_fst {ltab : P → Hook} {ranks : List P} (h : ranks.Nodup) :
    (drawTags draw ltab ranks).1 = ranks.map fun r => (draw (ltab r)).1 := by
  induction ranks generalizing ltab with
  | nil => rfl
  | cons rank ranks ih =>
    obtain ⟨hnot, hnodup⟩ := List.nodup_cons.mp h
    rw [List.map_cons, drawTags]
    refine congrArg (_ :: ·) ((ih hnodup).trans (List.map_congr_left fun r hr => ?_))
    have hne : r ≠ rank := fun heq => hnot (heq ▸ hr)
    rw [Function.update_of_ne hne]

theorem drawTags_snd {ltab : P → Hook} {ranks : List P} (h : ranks.Nodup) (r : P) :
    (drawTags draw ltab ranks).2 r = if r ∈ ranks then (draw (ltab r)).2 else ltab r := by
  induction ranks generalizing ltab with
  | nil => rfl
  | cons rank ranks ih =>
    obtain ⟨hnot, hnodup⟩ := List.nodup_cons.mp h
    rw [drawTags]
    refine (ih hnodup).trans ?_
    rcases eq_or_ne r rank with rfl | hne
    · rw [if_neg hnot, if_pos List.mem_cons_self, Function.update_self]
    · rw [Function.update_of_ne hne]
      simp [hne]

end Draw

/-- A process: its table of hooks, the channels it created, first one first, and the links a
`bc_sink_create` still inside `__bc_link_insert` has to insert. -/
structure Proc (P : Type) where
  ltab : P → Hook
  sinks : List (Chan P)
  srcs : List (Chan P)
  inserting : List (P × Link)

/-- `__bc_ltab_create`. -/
def Proc.start : Proc P := ⟨fun _ => ⟨[], 0, 0⟩, [], [], []⟩

section Create

variable [DecidableEq P]

/-- `bc_sink_create` up to `__bc_link_insert`. -/
def bcSinkCreate (p : Proc P) (cons : List P) : Proc P :=
  let (tags, ltab) := drawTags ptag p.ltab cons
  { p with
    ltab
    sinks := p.sinks ++ [⟨cons, tags⟩]
    inserting := cons.zip (tags.map (⟨·, p.sinks.length⟩)) }

/-- `bc_src_create`. -/
def bcSrcCreate (p : Proc P) (prod : List P) : Proc P :=
  let (tags, ltab) := drawTags gtag p.ltab prod
  { p with ltab, srcs := p.srcs ++ [⟨prod, tags⟩] }

/-- One round of the loop of `__bc_link_insert`. -/
def linkInsert (p : Proc P) (rank : P) (link : Link) (rest : List (P × Link)) : Proc P :=
  { p with
    ltab := Function.update p.ltab rank
      { p.ltab rank with links := link :: (p.ltab rank).links }
    inserting := rest }

end Create

/-! ## Ordinals -/

section Ordinal

variable [DecidableEq P]

/-- How many of the channels name `r`. -/
def naming (chans : List (Chan P)) (r : P) : ℕ := chans.countP (r ∈ ·.plist)

/-- **Channel `c` is the `k`-th of the channels that name `r`**, counted from 0. -/
structure IsNth (chans : List (Chan P)) (r : P) (k c : ℕ) : Prop where
  named : ∃ ch, chans[c]? = some ch ∧ r ∈ ch.plist
  before : naming (chans.take c) r = k

variable {chans chans' : List (Chan P)} {r : P} {k c c' : ℕ}

theorem IsNth.lt (h : IsNth chans r k c) : c < chans.length := by
  obtain ⟨ch, hch, -⟩ := h.named
  exact (List.getElem?_eq_some_iff.mp hch).1

theorem IsNth.mono (h : IsNth chans r k c) (hpre : chans <+: chans') : IsNth chans' r k c := by
  obtain ⟨rest, rfl⟩ := hpre
  obtain ⟨ch, hch, hr⟩ := h.named
  refine ⟨⟨ch, (List.getElem?_append_left h.lt).trans hch, hr⟩, ?_⟩
  rw [List.take_append_of_le_length h.lt.le]
  exact h.before

/-- A named channel has a smaller ordinal than what comes after it. -/
theorem IsNth.lt_naming (h : IsNth chans r k c) {n : ℕ} (hn : c < n) :
    k < naming (chans.take n) r := by
  obtain ⟨ch, hch, hr⟩ := h.named
  have hsplit : chans.take (c + 1) = chans.take c ++ [ch] := by
    rw [List.take_add_one, hch]
    rfl
  have hone : naming (chans.take (c + 1)) r = k + 1 := by
    rw [naming, hsplit, List.countP_append, List.countP_singleton]
    simp only [hr, decide_true, if_true]
    exact congrArg (· + 1) h.before
  have hsub : (chans.take (c + 1)).Sublist (chans.take n) :=
    (List.take_prefix_take_left hn).sublist
  exact Nat.lt_of_succ_le (hone.ge.trans hsub.countP_le)

/-- **An ordinal determines its channel.** -/
theorem IsNth.unique (h : IsNth chans r k c) (h' : IsNth chans r k c') : c = c' := by
  rcases lt_trichotomy c c' with hlt | rfl | hgt
  · exact absurd h'.before (h.lt_naming hlt).ne'
  · rfl
  · exact absurd h.before (h'.lt_naming hgt).ne'

theorem IsNth.lt_total (h : IsNth chans r k c) : k < naming chans r := by
  have := h.lt_naming h.lt
  rwa [List.take_length] at this

/-- A new channel is the next of those that name any of its peers. -/
theorem isNth_append {ch : Chan P} (hr : r ∈ ch.plist) :
    IsNth (chans ++ [ch]) r (naming chans r) chans.length where
  named := ⟨ch, List.getElem?_concat_length, hr⟩
  before := by rw [List.take_left]

theorem naming_append (ch : Chan P) :
    naming (chans ++ [ch]) r = naming chans r + if r ∈ ch.plist then 1 else 0 := by
  rw [naming, List.countP_append, List.countP_singleton]
  simp only [decide_eq_true_eq]
  rfl

end Ordinal

/-! ## What holds of one process -/

section Wf

variable [DecidableEq P] {p : Proc P}

/-- The tags of a channel are its ordinals. -/
def Tagged (chans : List (Chan P)) : Prop :=
  ∀ (c : ℕ) (ch : Chan P), chans[c]? = some ch →
    ch.tags = ch.plist.map (naming (chans.take c))

/-- The links for `q`, those still to be inserted first. -/
def Proc.links (p : Proc P) (q : P) : List Link :=
  (p.inserting.filter (·.1 = q)).map Prod.snd ++ (p.ltab q).links

/-- **The invariant of a process.** -/
structure Proc.Wf (p : Proc P) : Prop where
  sinkTag : ∀ q, (p.ltab q).sinkTag = naming p.sinks q
  srcTag : ∀ q, (p.ltab q).srcTag = naming p.srcs q
  sinks : Tagged p.sinks
  srcs : Tagged p.srcs
  links : ∀ q, ∀ l ∈ p.links q, IsNth p.sinks q l.tag l.channel
  nodup : ∀ q, ((p.links q).map Link.tag).Nodup

theorem tagged_append {chans : List (Chan P)} (h : Tagged chans) {ch : Chan P}
    (hch : ch.tags = ch.plist.map (naming chans)) : Tagged (chans ++ [ch]) := by
  intro c ch' hc
  rcases lt_or_ge c chans.length with hlt | hge
  · rw [List.getElem?_append_left hlt] at hc
    rw [List.take_append_of_le_length hlt.le]
    exact h c ch' hc
  · rw [List.getElem?_append_right hge, List.getElem?_singleton] at hc
    split at hc
    case isFalse => exact nomatch hc
    obtain rfl := Option.some.inj hc
    obtain rfl : c = chans.length := by omega
    rw [List.take_left]
    exact hch

/-- A channel's own tag for a peer is its ordinal. -/
theorem Tagged.isNth {chans : List (Chan P)} (h : Tagged chans) {c : ℕ} {ch : Chan P}
    (hc : chans[c]? = some ch) {i : ℕ} {r : P} (hr : ch.plist[i]? = some r) {t : ℕ}
    (ht : ch.tags[i]? = some t) : IsNth chans r t c := by
  refine ⟨⟨ch, hc, List.mem_of_getElem? hr⟩, ?_⟩
  rw [h c ch hc, List.getElem?_map, hr, Option.map_some, Option.some.injEq] at ht
  exact ht

theorem wf_start : (Proc.start : Proc P).Wf where
  sinkTag _ := rfl
  srcTag _ := rfl
  sinks c ch hc := by simp [Proc.start] at hc
  srcs c ch hc := by simp [Proc.start] at hc
  links q l hl := by simp [Proc.links, Proc.start] at hl
  nodup q := by simp [Proc.links, Proc.start]

/-- A draw of one counter leaves the links as they are. -/
theorem links_eq_of_drawTags {draw : Hook → ℕ × Hook} (hdraw : ∀ h, (draw h).2.links = h.links)
    {ltab : P → Hook} {ranks : List P} (q : P) :
    ((drawTags draw ltab ranks).2 q).links = (ltab q).links := by
  induction ranks generalizing ltab with
  | nil => rfl
  | cons rank ranks ih =>
    rw [drawTags]
    refine ih.trans ?_
    rcases eq_or_ne q rank with rfl | hne
    · rw [Function.update_self]
      exact hdraw _
    · rw [Function.update_of_ne hne]

/-- One tag is drawn for each rank. -/
theorem length_drawTags (draw : Hook → ℕ × Hook) (ltab : P → Hook) (ranks : List P) :
    (drawTags draw ltab ranks).1.length = ranks.length := by
  induction ranks generalizing ltab with
  | nil => rfl
  | cons rank ranks ih => exact congrArg (· + 1) (ih _)

theorem Proc.Wf.bcSrcCreate (h : p.Wf) {prod : List P} (hnodup : prod.Nodup) :
    (bcSrcCreate p prod).Wf := by
  have hltab q : (Libdsys.bcSrcCreate p prod).ltab q
      = if q ∈ prod then (gtag (p.ltab q)).2 else p.ltab q := drawTags_snd hnodup q
  have hlinks q : (Libdsys.bcSrcCreate p prod).links q = p.links q :=
    congrArg (_ ++ ·) (links_eq_of_drawTags (fun _ => rfl) q)
  refine ⟨fun q => ?_, fun q => ?_, h.sinks, ?_, fun q => ?_, fun q => ?_⟩
  · rw [hltab]
    split
    · exact h.sinkTag q
    · exact h.sinkTag q
  · refine Eq.trans ?_ (naming_append _).symm
    rw [hltab]
    split
    · exact congrArg (· + 1) (h.srcTag q)
    · exact h.srcTag q
  · refine tagged_append h.srcs ((drawTags_fst hnodup).trans ?_)
    exact List.map_congr_left fun r _ => h.srcTag r
  · rw [hlinks]
    exact h.links q
  · rw [hlinks]
    exact h.nodup q

/-- What a `bc_sink_create` is about to insert for `q`. -/
theorem filter_inserting {cons : List P} (hnodup : cons.Nodup) (f : P → Link) (q : P) :
    ((cons.zip (cons.map f)).filter (·.1 = q)).map Prod.snd = if q ∈ cons then [f q] else [] := by
  have hzip : cons.zip (cons.map f) = cons.map fun r => (r, f r) := by
    rw [← List.zip_map', List.map_id']
  have hsame : (cons.filter fun r => decide (r = q)) = if q ∈ cons then [q] else [] := by
    rw [List.filter_eq, hnodup.count]
    split <;> rfl
  rw [hzip, List.filter_map, List.map_map]
  refine (congrArg (List.map _) hsame).trans ?_
  split <;> rfl

theorem Proc.Wf.bcSinkCreate (h : p.Wf) (hins : p.inserting = []) {cons : List P}
    (hnodup : cons.Nodup) : (bcSinkCreate p cons).Wf := by
  have hltab q : (Libdsys.bcSinkCreate p cons).ltab q
      = if q ∈ cons then (ptag (p.ltab q)).2 else p.ltab q := drawTags_snd hnodup q
  have hold q : p.links q = (p.ltab q).links := by
    rw [Proc.links, hins]
    rfl
  have hlinks q : (Libdsys.bcSinkCreate p cons).links q
      = (if q ∈ cons then [⟨naming p.sinks q, p.sinks.length⟩] else []) ++ p.links q := by
    have htags : (drawTags ptag p.ltab cons).1.map (Link.mk · p.sinks.length)
        = cons.map fun r => ⟨naming p.sinks r, p.sinks.length⟩ := by
      rw [drawTags_fst hnodup, List.map_map]
      exact List.map_congr_left fun r _ => congrArg (Link.mk · _) (h.sinkTag r)
    refine congrArg₂ (· ++ ·) ?_
      ((links_eq_of_drawTags (fun _ => rfl) q).trans (hold q).symm)
    exact (congrArg (fun ls => ((cons.zip ls).filter (·.1 = q)).map Prod.snd) htags).trans
      (filter_inserting hnodup _ q)
  refine ⟨fun q => ?_, fun q => ?_, ?_, h.srcs, fun q l hl => ?_, fun q => ?_⟩
  · refine Eq.trans ?_ (naming_append _).symm
    rw [hltab]
    split
    · exact congrArg (· + 1) (h.sinkTag q)
    · exact h.sinkTag q
  · rw [hltab]
    split
    · exact h.srcTag q
    · exact h.srcTag q
  · refine tagged_append h.sinks ((drawTags_fst hnodup).trans ?_)
    exact List.map_congr_left fun r _ => h.sinkTag r
  · rw [hlinks] at hl
    rcases List.mem_append.mp hl with hnew | hl
    · split at hnew
      case isFalse => exact absurd hnew List.not_mem_nil
      rename_i hq
      obtain rfl := List.mem_singleton.mp hnew
      exact isNth_append hq
    · exact (h.links q l hl).mono (List.prefix_append _ _)
  · rw [hlinks]
    split
    · -- the new tag is past every tag in use
      refine List.nodup_cons.mpr ⟨fun hmem => ?_, h.nodup q⟩
      obtain ⟨l, hl, htag⟩ := List.mem_map.mp hmem
      exact (h.links q l hl).lt_total.ne htag
    · exact h.nodup q

theorem linkInsert_ltab (rank : P) (link : Link) (rest : List (P × Link)) (q : P) :
    (linkInsert p rank link rest).ltab q =
      if q = rank then { p.ltab rank with links := link :: (p.ltab rank).links } else p.ltab q :=
  Function.update_apply _ _ _ _

/-- An insertion moves a link into its hook. -/
theorem links_linkInsert {rank : P} {link : Link} {rest : List (P × Link)}
    (hins : p.inserting = (rank, link) :: rest) (q : P) :
    ((linkInsert p rank link rest).links q).Perm (p.links q) := by
  rw [Proc.links, Proc.links, hins, linkInsert_ltab]
  rcases eq_or_ne q rank with rfl | hne
  · rw [if_pos rfl, List.filter_cons_of_pos (by simp), List.map_cons]
    exact List.perm_middle
  · rw [if_neg hne, List.filter_cons_of_neg (by simpa using hne.symm)]
    exact .refl _

theorem Proc.Wf.linkInsert (h : p.Wf) {rank : P} {link : Link} {rest : List (P × Link)}
    (hins : p.inserting = (rank, link) :: rest) : (linkInsert p rank link rest).Wf := by
  refine ⟨fun q => ?_, fun q => ?_, h.sinks, h.srcs, fun q l hl => ?_, fun q => ?_⟩
  · rw [linkInsert_ltab]
    split
    case isTrue hq => exact hq ▸ h.sinkTag q
    case isFalse => exact h.sinkTag q
  · rw [linkInsert_ltab]
    split
    case isTrue hq => exact hq ▸ h.srcTag q
    case isFalse => exact h.srcTag q
  · exact h.links q l ((links_linkInsert hins q).mem_iff.mp hl)
  · exact ((links_linkInsert hins q).map Link.tag).nodup_iff.mpr (h.nodup q)

end Wf

end Libdsys
