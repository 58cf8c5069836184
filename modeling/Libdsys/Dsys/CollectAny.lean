import Mathlib.Data.List.Forall2
import Libdsys.Dsys.Streams

/-!
# Dsys/CollectAny — a get from whoever has something

`__bc_r_collect_any` asks its producers in turn, and each of them answers with a 0, or with a 1 and
the data.  The flag and the data are written in one lock section, and nobody else is asked before
both are read.

* `Traced.Polls` — where a process stands that gets from such a source, with what is under way.
* `collect_any_exact` — every get returns what one producer sent for it.
-/

open Machinery

namespace Libdsys

variable {P σ : Type}

/-- **The producers of a source have pipes to process `q`**, and the links to them exist. -/
def Conf.Piped (conf : Conf P) (q : P) (src : Src P) : Prop :=
  ∀ p tag, (p, tag) ∈ src.links → ∃ link ch, (conf.ltab p q).find? (·.tag = tag) = some link ∧
    (conf.chans p).sinks[link.channel]? = some ch ∧ ch.role = .pipe ∧
    ch.dtype.bytes = src.dtype.bytes ∧
    ∀ q' link', link' ∈ conf.ltab p q' → link'.channel = link.channel → q' = q

/-- **The gets of a program**: they are all from source `j`, for units that there are. -/
def Program.GetsFrom (prog : Program σ) (j : ℕ) (src : Src P) : Prop :=
  ∀ st bc loc du, prog.call st = some (.get bc loc du) →
    bc = .src j ∧ loc.isSome ∧ 1 ≤ du ∧ src.dtype.bytes * du.toNat < 2 ^ 64

/-- A grant of one of the producers of a source, for `du` units. -/
structure Grant.From (g : Grant P) (conf : Conf P) (q : P) (src : Src P) (du : ℕ) : Prop where
  length : g.data.length = src.dtype.bytes * du
  link : ∃ tag link, (g.sender, tag) ∈ src.links ∧
    (conf.ltab g.sender q).find? (·.tag = tag) = some link ∧ link.channel = g.chan

/-- **A get that returned the data of a grant**, at the start of its buffer. -/
def Answers (conf : Conf P) (q : P) (src : Src P) (x : Call × ℤ × List Byte) (g : Grant P) : Prop :=
  ∃ bc loc du, x.1 = .get bc (some loc) du ∧ g.From conf q src du.toNat ∧
    x.2 = (0, g.data ++ loc.drop g.data.length)

namespace Traced

/-- Nothing is under way to process `q` but, from `p`, the bytes of `stream` and the requests of
`pend`. -/
def Only (t : Traced P σ) (q p : P) (stream : List Byte) (pend : List GetRequest) : Prop :=
  (t.sys.data p q).stream = stream ∧ t.sys.pending p q = pend ∧
    ∀ p' ≠ p, (t.sys.data p' q).stream = [] ∧ t.sys.pending p' q = []

/-- Nothing is under way to process `q`. -/
def Quiet (t : Traced P σ) (q : P) : Prop :=
  ∀ p, (t.sys.data p q).stream = [] ∧ t.sys.pending p q = []

/-- The gets that have returned have all that was granted. -/
def Even (conf : Conf P) (src : Src P) (t : Traced P σ) (q : P) : Prop :=
  List.Forall₂ (Answers conf q src) (t.gets q) (t.granted q)

/-- The get under way was granted its data. -/
def Ahead (conf : Conf P) (src : Src P) (t : Traced P σ) (q p : P) (du : ℕ) (u : List Byte) :
    Prop :=
  ∃ gs g, t.granted q = gs ++ [g] ∧ List.Forall₂ (Answers conf q src) (t.gets q) gs ∧
    g.From conf q src du ∧ g.sender = p ∧ g.data = u

/-- What `__bc_r_collect_any` does with the flag. -/
def onFlag (links rest : List (P × ℕ)) (sz du : ℕ) (p : P)
    (next : List Byte → Micro P (ℤ × List Byte)) (flag : List Byte) : Micro P (ℤ × List Byte) :=
  if flag = intBytes 0 then .poll links rest sz du next else .read p sz next

/-- What it does with the data. -/
def onData (loc : List Byte) (out : List Byte) : Micro P (ℤ × List Byte) :=
  (store loc 0 out).bind fun loc => .done (0, loc)

/-- Where a get stands: its buffer is `loc`, and it is for `du` units. -/
inductive Getting (conf : Conf P) (src : Src P) (t : Traced P σ) (q : P) (loc : List Byte)
    (du : ℕ) : Micro P (ℤ × List Byte) → Prop
  | poll {rest} (hrest : rest ⊆ src.links) (hquiet : t.Quiet q) (heven : t.Even conf src q) :
    Getting conf src t q loc du
      (.poll src.links rest (sizeMul src.dtype.bytes du) du (onData loc))
  | ask {p tag rest} (hlink : (p, tag) ∈ src.links) (hrest : rest ⊆ src.links)
    (hquiet : t.Quiet q) (heven : t.Even conf src q) :
    Getting conf src t q loc du (.request p ⟨true, tag, du⟩ (.read p 4
      (onFlag src.links rest (sizeMul src.dtype.bytes du) du p (onData loc))))
  | asked {p tag rest} (hlink : (p, tag) ∈ src.links) (hrest : rest ⊆ src.links)
    (honly : t.Only q p [] [⟨true, tag, du⟩]) (heven : t.Even conf src q) :
    Getting conf src t q loc du
      (.read p 4 (onFlag src.links rest (sizeMul src.dtype.bytes du) du p (onData loc)))
  | refused {p rest} (hrest : rest ⊆ src.links) (honly : t.Only q p (intBytes 0) [])
    (heven : t.Even conf src q) :
    Getting conf src t q loc du
      (.read p 4 (onFlag src.links rest (sizeMul src.dtype.bytes du) du p (onData loc)))
  | granted {p rest u} (honly : t.Only q p (intBytes 1 ++ u) [])
    (hahead : t.Ahead conf src q p du u) :
    Getting conf src t q loc du
      (.read p 4 (onFlag src.links rest (sizeMul src.dtype.bytes du) du p (onData loc)))
  | data {p u} (honly : t.Only q p u []) (hahead : t.Ahead conf src q p du u) :
    Getting conf src t q loc du (.read p (sizeMul src.dtype.bytes du) (onData loc))
  | store {p u} (hquiet : t.Quiet q) (hahead : t.Ahead conf src q p du u) :
    Getting conf src t q loc du (onData loc u)

/-- **Where a process stands that gets from such a source.** -/
def Polls (conf : Conf P) (prog : Program σ) (src : Src P) (t : Traced P σ) (q : P) : Prop :=
  match (t.sys.comp q).micro with
  | none => t.Quiet q ∧ t.Even conf src q
  | some m =>
    (t.Quiet q ∧ t.Even conf src q ∧ m.Plain [] ∧
      ∀ bc loc du, prog.call (t.sys.comp q).state ≠ some (.get bc loc du)) ∨
    ∃ bc loc du, prog.call (t.sys.comp q).state = some (.get bc (some loc) du) ∧
      src.dtype.bytes * du.toNat < 2 ^ 64 ∧ t.Getting conf src q loc du.toNat m

section Rules

variable {conf : Conf P} {prog : P → Program σ} {src : Src P} {t t' : Traced P σ} {q : P}

theorem polls_iff {program : Program σ} {m : Micro P (ℤ × List Byte)}
    (hm : (t.sys.comp q).micro = some m) : t.Polls conf program src q ↔
      (t.Quiet q ∧ t.Even conf src q ∧ m.Plain [] ∧
        ∀ bc loc du, program.call (t.sys.comp q).state ≠ some (.get bc loc du)) ∨
      ∃ bc loc du, program.call (t.sys.comp q).state = some (.get bc (some loc) du) ∧
        src.dtype.bytes * du.toNat < 2 ^ 64 ∧ t.Getting conf src q loc du.toNat m := by
  rw [Polls, hm]

/-- Nothing that is under way to process `q` has changed. -/
structure Same (t t' : Traced P σ) (q : P) : Prop where
  data : ∀ p, (t'.sys.data p q).stream = (t.sys.data p q).stream
  pending : ∀ p, t'.sys.pending p q = t.sys.pending p q
  gets : t'.gets q = t.gets q
  granted : t'.granted q = t.granted q

theorem Quiet.congr (h : t.Quiet q) (hs : Same t t' q) : t'.Quiet q := by
  intro p
  rw [hs.data, hs.pending]
  exact h p

theorem Only.congr {p : P} {stream : List Byte} {pend : List GetRequest}
    (h : t.Only q p stream pend) (hs : Same t t' q) : t'.Only q p stream pend := by
  refine ⟨(hs.data p).trans h.1, (hs.pending p).trans h.2.1, fun p' hp' => ?_⟩
  rw [hs.data, hs.pending]
  exact h.2.2 p' hp'

theorem Even.congr (h : t.Even conf src q) (hs : Same t t' q) : t'.Even conf src q := by
  rw [Even, hs.gets, hs.granted]
  exact h

theorem Ahead.congr {p : P} {du : ℕ} {u : List Byte} (h : t.Ahead conf src q p du u)
    (hs : Same t t' q) : t'.Ahead conf src q p du u := by
  rw [Ahead, hs.gets, hs.granted]
  exact h

theorem Getting.congr {loc : List Byte} {du : ℕ} {m : Micro P (ℤ × List Byte)}
    (h : t.Getting conf src q loc du m) (hs : Same t t' q) : t'.Getting conf src q loc du m := by
  cases h with
  | poll hrest hquiet heven => exact .poll hrest (hquiet.congr hs) (heven.congr hs)
  | ask hlink hrest hquiet heven => exact .ask hlink hrest (hquiet.congr hs) (heven.congr hs)
  | asked hlink hrest honly heven => exact .asked hlink hrest (honly.congr hs) (heven.congr hs)
  | refused hrest honly heven => exact .refused hrest (honly.congr hs) (heven.congr hs)
  | granted honly hahead => exact .granted (honly.congr hs) (hahead.congr hs)
  | data honly hahead => exact .data (honly.congr hs) (hahead.congr hs)
  | store hquiet hahead => exact .store (hquiet.congr hs) (hahead.congr hs)

theorem Polls.congr (h : t.Polls conf (prog q) src q) (hcomp : t'.sys.comp q = t.sys.comp q)
    (hs : Same t t' q) : t'.Polls conf (prog q) src q := by
  cases hm : (t.sys.comp q).micro with
  | none =>
    rw [Polls, hm] at h
    rw [Polls, hcomp, hm]
    exact ⟨h.1.congr hs, h.2.congr hs⟩
  | some m =>
    have hm' : (t'.sys.comp q).micro = some m := by rw [hcomp, hm]
    refine (polls_iff hm').mpr (((polls_iff hm).mp h).imp ?_ ?_)
    · rintro ⟨hquiet, heven, hplain, hcall⟩
      exact ⟨hquiet.congr hs, heven.congr hs, hplain, hcomp ▸ hcall⟩
    · rintro ⟨bc, loc, du, hcall, hfit, hget⟩
      exact ⟨bc, loc, du, hcomp ▸ hcall, hfit, hget.congr hs⟩

/-! ### The process itself -/

variable [DecidableEq P] {A : Arith} {j : ℕ}

/-- A call that is not a get asks nobody. -/
theorem plain_of_not_get {chans : Chans P} {call : Call}
    (hget : ∀ bc loc du, call ≠ .get bc loc du) : (bcCall A chans call).Plain [] := by
  have hcall := callIs_bcCall A chans call
  generalize bcCall A chans call = micro at hcall ⊢
  cases hcall with
  | refused | null | fill => trivial
  | put hch => exact plain_bind plain_p fun _ => trivial
  | get => exact absurd rfl (hget _ _ _)

/-- A get begins with the first poll. -/
theorem bcCall_get {chans : Chans P} (hsrc : chans.srcs[j]? = some src)
    (hany : src.role = .collectAny) {loc : List Byte} {du : ℤ} (hdu : 1 ≤ du) :
    bcCall A chans (.get (.src j) (some loc) du) = .poll src.links src.links
      (sizeMul src.dtype.bytes du.toNat) du.toNat (onData loc) := by
  have hdu' : ¬ du < 1 := by omega
  simp only [bcCall, bcGet, hsrc, if_neg hdu', hany, Role.r]
  rfl

theorem Polls.call (h : t.Polls conf (prog q) src q) (hsrc : (conf.chans q).srcs[j]? = some src)
    (hany : src.role = .collectAny) (hgets : (prog q).GetsFrom j src)
    (hm : (t.sys.comp q).micro = none) {call : Call}
    (hcall : (prog q).call (t.sys.comp q).state = some call) :
    (t.noteComp prog q (t.sys.setMicro q (bcCall A (conf.chans q) call))).Polls
      conf (prog q) src q := by
  rw [Polls, hm] at h
  obtain ⟨hquiet, heven⟩ := h
  generalize hbc : bcCall A (conf.chans q) call = micro
  have hsys := sys_noteComp prog t q (t.sys.setMicro q micro)
  have hs : Same t (t.noteComp prog q (t.sys.setMicro q micro)) q := by
    refine ⟨fun p => ?_, fun p => ?_, ?_, ?_⟩
    · rw [hsys]
      rfl
    · rw [hsys]
      rfl
    · simp only [noteComp, hm, hcall, Option.bind_some]
      split <;> rfl
    · simp only [noteComp, hm, hcall, Option.bind_some]
      split <;> rfl
  have hm' : ((t.noteComp prog q (t.sys.setMicro q micro)).sys.comp q).micro = some micro := by
    rw [hsys]
    exact micro_setMicro ..
  have hstate : ((t.noteComp prog q (t.sys.setMicro q micro)).sys.comp q).state =
      (t.sys.comp q).state := by
    rw [hsys]
    simp
  refine (polls_iff hm').mpr ?_
  rw [hstate, hcall]
  by_cases hget : ∃ bc loc du, call = .get bc loc du
  · obtain ⟨bc, loc, du, rfl⟩ := hget
    obtain ⟨rfl, hloc, hdu, hfit⟩ := hgets _ _ _ _ hcall
    obtain ⟨loc, rfl⟩ := Option.isSome_iff_exists.mp hloc
    rw [bcCall_get hsrc hany hdu] at hbc
    subst hbc
    exact .inr ⟨_, loc, du, rfl, hfit,
      .poll (List.Subset.refl _) (hquiet.congr hs) (heven.congr hs)⟩
  · have hget' : ∀ bc loc du, call ≠ .get bc loc du := fun bc loc du h => hget ⟨bc, loc, du, h⟩
    refine .inl ⟨hquiet.congr hs, heven.congr hs, hbc ▸ plain_of_not_get hget',
      fun bc loc du heq => ?_⟩
    exact hget' bc loc du (Option.some.inj heq)

omit [DecidableEq P] in
/-- A get has its data at the start of its buffer. -/
theorem onData_eq_done {loc u : List Byte} {out : ℤ × List Byte}
    (h : onData (P := P) loc u = .done out) : out = (0, u ++ loc.drop u.length) := by
  rw [onData, store, writeAt] at h
  split at h
  · obtain rfl := Micro.done.inj h
    simp [overlay]
  · cases h

/-- A get that returns is written down. -/
theorem gets_noteComp_get {out : ℤ × List Byte} (hm : (t.sys.comp q).micro = some (.done out))
    {bc : Handle} {loc : Option (List Byte)} {du : ℤ}
    (hcall : (prog q).call (t.sys.comp q).state = some (.get bc loc du)) (sys : Dsys P σ) :
    (t.noteComp prog q sys).gets q = t.gets q ++ [(.get bc loc du, out)] := by
  rw [noteComp, hm, hcall]
  exact Function.update_self ..

/-- Any other call that returns is not. -/
theorem gets_noteComp_of_not_get {out : ℤ × List Byte}
    (hm : (t.sys.comp q).micro = some (.done out))
    (hcall : ∀ bc loc du, (prog q).call (t.sys.comp q).state ≠ some (.get bc loc du))
    (sys : Dsys P σ) : (t.noteComp prog q sys).gets q = t.gets q := by
  rw [noteComp, hm]
  refine (Function.update_self ..).trans ?_
  split
  · next hget => exact absurd hget (hcall _ _ _)
  · rfl

theorem Polls.returns (h : t.Polls conf (prog q) src q) {out : ℤ × List Byte}
    (hm : (t.sys.comp q).micro = some (.done out)) :
    (t.noteComp prog q (t.sys.setComp q (Dsys.returns (prog q) (t.sys.comp q) out))).Polls
      conf (prog q) src q := by
  generalize hsys' : t.sys.setComp q (Dsys.returns (prog q) (t.sys.comp q) out) = sys'
  have hm' : ((t.noteComp prog q sys').sys.comp q).micro = none := by
    rw [sys_noteComp, ← hsys']
    simp [Dsys.returns]
  have hgranted : (t.noteComp prog q sys').granted = t.granted := by
    simp only [noteComp, hm]
  have hquiet' (hquiet : t.Quiet q) : (t.noteComp prog q sys').Quiet q := by
    rw [Quiet, sys_noteComp, ← hsys']
    exact hquiet
  rw [Polls, hm']
  obtain ⟨hquiet, heven, -, hcall⟩ | ⟨bc, loc, du, hcall, hfit, hget⟩ := (polls_iff hm).mp h
  · refine ⟨hquiet' hquiet, ?_⟩
    rw [Even, gets_noteComp_of_not_get hm hcall, hgranted]
    exact heven
  · generalize hdone : Micro.done out = m at hget
    cases hget with
    | store hquiet hahead =>
      obtain ⟨gs, g, heq, heven, hfrom, -, rfl⟩ := hahead
      refine ⟨hquiet' hquiet, ?_⟩
      rw [Even, gets_noteComp_get hm hcall, hgranted, heq]
      refine List.rel_append heven (.cons ⟨bc, loc, du, rfl, hfrom, ?_⟩ .nil)
      exact onData_eq_done hdone.symm
    | _ => cases hdone

/-- Only a call and a return have more written down than the put in progress. -/
theorem same_noteComp {m : Micro P (ℤ × List Byte)} (hm : (t.sys.comp q).micro = some m)
    (hdone : ∀ out, m ≠ .done out) (sys : Dsys P σ) :
    Same { t with sys } (t.noteComp prog q sys) q := by
  refine ⟨fun p => ?_, fun p => ?_, ?_, ?_⟩
  · rw [sys_noteComp]
  · rw [sys_noteComp]
  · cases m with
    | done out => exact absurd rfl (hdone out)
    | _ => simp only [noteComp, hm]
  · cases m with
    | done out => exact absurd rfl (hdone out)
    | _ => simp only [noteComp, hm]

theorem same_setMicro (t : Traced P σ) (q : P) (m : Micro P (ℤ × List Byte)) :
    Same t { t with sys := t.sys.setMicro q m } q :=
  ⟨fun _ => rfl, fun _ => rfl, rfl, rfl⟩

theorem Only.quiet {p : P} (h : t.Only q p [] []) : t.Quiet q := by
  intro p'
  by_cases hp : p' = p
  · exact hp ▸ ⟨h.1, h.2.1⟩
  · exact h.2.2 p' hp

/-- A request is sent. -/
theorem Quiet.request (h : t.Quiet q) (p : P) (r : GetRequest) (m : Micro P (ℤ × List Byte)) :
    ({ t with sys := (t.sys.setRequests q p ((t.sys.requests q p).send [r])).setMicro q m } :
      Traced P σ).Only q p [] [r] := by
  have hpend (p' : P) := Dsys.pending_request t.sys p q p' q r
  refine ⟨(h p).1, ?_, fun p' hp' => ⟨(h p').1, ?_⟩⟩
  · refine (hpend p).trans ?_
    rw [if_pos ⟨rfl, rfl⟩, (h p).2, List.nil_append]
  · refine (hpend p').trans ?_
    rw [if_neg fun h => hp' h.2, (h p').2]

/-- A read takes what was sent first. -/
theorem Only.read {p : P} {stream : List Byte} {pend : List GetRequest}
    (h : t.Only q p stream pend) {n : ℕ} {bs : List Byte} {socket : Socket Byte}
    (htake : (t.sys.data p q).take? n = some (bs, socket)) (m : Micro P (ℤ × List Byte)) :
    n ≤ stream.length ∧ bs = stream.take n ∧
      ({ t with sys := (t.sys.setData p q socket).setMicro q m } : Traced P σ).Only q p
        (stream.drop n) pend := by
  obtain ⟨hn, rfl, hstream⟩ := Socket.take?_eq_some htake
  rw [h.1] at hstream ⊢
  have hle : n ≤ stream.length := by
    rw [← h.1]
    exact hn.trans (by simp [Socket.stream])
  refine ⟨hle, rfl, ?_, h.2.1, fun p' hp' => ⟨?_, (h.2.2 p' hp').2⟩⟩
  · simpa using hstream
  · simpa [hp'] using (h.2.2 p' hp').1

/-- **Where a get stands that asks, reads or polls**, after a step of it. -/
theorem Getting.step {loc : List Byte} {du : ℕ} {m : Micro P (ℤ × List Byte)}
    (h : t.Getting conf src q loc du m) (hfit : src.dtype.bytes * du < 2 ^ 64)
    {program : Program σ} {s' : Dsys P σ}
    (hstep : t.sys.microStep program q m = some s') (hdone : ∀ out, m ≠ .done out) :
    ∃ m', (s'.comp q).micro = some m' ∧ (s'.comp q).state = (t.sys.comp q).state ∧
      ({ t with sys := s' } : Traced P σ).Getting conf src q loc du m' := by
  have hset (s : Dsys P σ) (m : Micro P (ℤ × List Byte)) :
      ((s.setMicro q m).comp q).state = (s.comp q).state := by simp
  cases h with
  | @poll rest hrest hquiet heven =>
    cases rest with
    | nil =>
      obtain rfl := Option.some.inj hstep
      exact ⟨_, micro_setMicro .., hset .., .poll (List.Subset.refl _)
        (hquiet.congr (same_setMicro ..)) (heven.congr (same_setMicro ..))⟩
    | cons x rest =>
      obtain ⟨hx, hrest⟩ := List.cons_subset.mp hrest
      obtain rfl := Option.some.inj hstep
      exact ⟨_, micro_setMicro .., hset .., .ask hx hrest
        (hquiet.congr (same_setMicro ..)) (heven.congr (same_setMicro ..))⟩
  | @ask p tag rest hlink hrest hquiet heven =>
    obtain ⟨-, hstep⟩ := Option.ite_none_left_eq_some.mp hstep
    obtain rfl := Option.some.inj hstep
    exact ⟨_, micro_setMicro .., hset .., .asked hlink hrest (hquiet.request p _ _) heven⟩
  | @asked p tag rest hlink hrest honly heven =>
    obtain ⟨⟨bs, socket⟩, hread, -⟩ := Option.bind_eq_some_iff.mp hstep
    exact absurd (honly.read hread (.fault)).1 (by decide)
  | @refused p rest hrest honly heven =>
    obtain ⟨⟨bs, socket⟩, hread, hstep⟩ := Option.bind_eq_some_iff.mp hstep
    obtain rfl := Option.some.inj hstep
    obtain ⟨-, rfl, honly⟩ := honly.read hread _
    exact ⟨_, micro_setMicro .., hset .., .poll hrest honly.quiet heven⟩
  | @granted p rest u honly hahead =>
    obtain ⟨⟨bs, socket⟩, hread, hstep⟩ := Option.bind_eq_some_iff.mp hstep
    obtain rfl := Option.some.inj hstep
    obtain ⟨-, rfl, honly⟩ := honly.read hread _
    exact ⟨_, micro_setMicro .., hset .., .data honly hahead⟩
  | @data p u honly hahead =>
    obtain ⟨⟨bs, socket⟩, hread, hstep⟩ := Option.bind_eq_some_iff.mp hstep
    obtain rfl := Option.some.inj hstep
    obtain ⟨-, rfl, honly⟩ := honly.read hread (onData loc bs)
    have hlen : u.length = sizeMul src.dtype.bytes du := by
      obtain ⟨gs, g, -, -, hfrom, -, rfl⟩ := hahead
      rw [hfrom.length, sizeMul, Nat.mod_eq_of_lt hfit]
    rw [List.drop_of_length_le hlen.le] at honly
    rw [List.take_of_length_le hlen.le] at honly ⊢
    exact ⟨_, micro_setMicro .., hset .., .store honly.quiet hahead⟩
  | @store p u hquiet hahead =>
    have honData : onData (P := P) loc u = .fault ∨ ∃ out, onData (P := P) loc u = .done out := by
      rw [onData, Libdsys.store]
      cases writeAt loc 0 u with
      | none => exact .inl rfl
      | some loc => exact .inr ⟨_, rfl⟩
    obtain hfault | ⟨out, hout⟩ := honData
    · rw [hfault] at hstep
      cases hstep
    · exact absurd hout (hdone out)

/-- A call that asks nobody goes on. -/
theorem Quiet.step {m : Micro P (ℤ × List Byte)} (h : t.Quiet q) (hplain : m.Plain [])
    (hm : (t.sys.comp q).micro = some m) (hdone : ∀ out, m ≠ .done out) {s' : Dsys P σ}
    (hmoves : Dsys.Moves A conf prog t.sys (.comp q) s') :
    ∃ m', (s'.comp q).micro = some m' ∧ (s'.comp q).state = (t.sys.comp q).state ∧
      m'.Plain [] ∧ ({ t with sys := s' } : Traced P σ).Quiet q := by
  cases hmoves with
  | call hm' => simp [hm] at hm'
  | returns hm' =>
    obtain rfl := Option.some.inj (hm.symm.trans hm')
    exact absurd rfl (hdone _)
  | queue hm' _ hon =>
    obtain rfl := Option.some.inj (hm.symm.trans hm')
    exact ⟨_, micro_setMicro .., by simp, hon.plain hplain, h⟩
  | request hm' =>
    obtain rfl := Option.some.inj (hm.symm.trans hm')
    exact absurd hplain.2.1 List.not_mem_nil
  | @read _ p n next bs socket hm' hread =>
    obtain rfl := Option.some.inj (hm.symm.trans hm')
    have honly : t.Only q p [] [] := ⟨(h p).1, (h p).2, fun p' _ => h p'⟩
    obtain ⟨-, rfl, honly⟩ := honly.read hread (next bs)
    rw [List.drop_nil] at honly
    exact ⟨_, micro_setMicro .., by simp, hplain _, honly.quiet⟩
  | poll hm' | pollAgain hm' =>
    obtain rfl := Option.some.inj (hm.symm.trans hm')
    exact hplain.elim

/-- **A step of the process itself.** -/
theorem Polls.step_comp (h : t.Polls conf (prog q) src q)
    (hsrc : (conf.chans q).srcs[j]? = some src) (hany : src.role = .collectAny)
    (hgets : (prog q).GetsFrom j src) {s' : Dsys P σ}
    (hstep : t.sys.step A conf prog (.comp q) = some s') :
    (t.noteComp prog q s').Polls conf (prog q) src q := by
  have hmoves := Dsys.moves_of_step hstep
  cases hm : (t.sys.comp q).micro with
  | none =>
    simp only [Dsys.step, hm] at hstep
    obtain ⟨call, hcall, hstep⟩ := Option.bind_eq_some_iff.mp hstep
    obtain rfl := Option.some.inj hstep
    exact h.call hsrc hany hgets hm hcall
  | some m =>
    simp only [Dsys.step, hm] at hstep
    by_cases hret : ∃ out, m = .done out
    · obtain ⟨out, rfl⟩ := hret
      obtain rfl := Option.some.inj hstep
      exact h.returns hm
    · have hdone : ∀ out, m ≠ .done out := fun out h => hret ⟨out, h⟩
      have hs : Same { t with sys := s' } (t.noteComp prog q s') q := same_noteComp hm hdone s'
      have hcomp : (t.noteComp prog q s').sys.comp q = s'.comp q := by rw [sys_noteComp]
      obtain ⟨hquiet, heven, hplain, hcall⟩ | ⟨bc, loc, du, hcall, hfit, hget⟩ :=
        (polls_iff hm).mp h
      · obtain ⟨m', hm', hstate, hplain', hquiet'⟩ := hquiet.step hplain hm hdone hmoves
        refine (polls_iff (by rw [hcomp, hm'])).mpr (.inl ⟨hquiet'.congr hs, ?_, hplain', ?_⟩)
        · exact Even.congr (t := { t with sys := s' }) heven hs
        · rw [hcomp, hstate]
          exact hcall
      · obtain ⟨m', hm', hstate, hget'⟩ := hget.step hfit hstep hdone
        refine (polls_iff (by rw [hcomp, hm'])).mpr
          (.inr ⟨bc, loc, du, ?_, hfit, hget'.congr hs⟩)
        rw [hcomp, hstate, hcall]

/-! ### An answer -/

/-- **A process that is answered has asked**, and reads the flag next. -/
theorem Polls.asked (h : t.Polls conf (prog q) src q) {p : P} {r : GetRequest}
    (hr : (t.sys.service p q).request = some r) :
    ∃ bc loc du tag rest, (prog q).call (t.sys.comp q).state = some (.get bc (some loc) du) ∧
      src.dtype.bytes * du.toNat < 2 ^ 64 ∧ r = ⟨true, tag, du.toNat⟩ ∧ (p, tag) ∈ src.links ∧
      rest ⊆ src.links ∧ t.Only q p [] [r] ∧ t.Even conf src q ∧
      (t.sys.comp q).micro = some (.read p 4 (onFlag src.links rest
        (sizeMul src.dtype.bytes du.toNat) du.toNat p (onData loc))) := by
  obtain ⟨pend, hpend⟩ : ∃ pend, t.sys.pending p q = r :: pend := by
    rw [Dsys.pending, hr]
    exact ⟨_, rfl⟩
  have hquiet (hquiet : t.Quiet q) : False := by
    have hp := (hquiet p).2
    rw [hpend] at hp
    cases hp
  have honly {p' : P} {stream : List Byte} (honly : t.Only q p' stream []) : False := by
    by_cases hp : p = p'
    · subst hp
      have hp := honly.2.1
      rw [hpend] at hp
      cases hp
    · have hp := (honly.2.2 p hp).2
      rw [hpend] at hp
      cases hp
  cases hm : (t.sys.comp q).micro with
  | none =>
    rw [Polls, hm] at h
    exact (hquiet h.1).elim
  | some m =>
    obtain ⟨hquiet', -⟩ | ⟨bc, loc, du, hcall, hfit, hget⟩ := (polls_iff hm).mp h
    · exact (hquiet hquiet').elim
    · cases hget with
      | poll _ hquiet' | ask _ _ hquiet' | store hquiet' => exact (hquiet hquiet').elim
      | refused _ honly' | granted honly' | data honly' => exact (honly honly').elim
      | @asked p' tag rest hlink hrest honly' heven =>
        obtain rfl : p = p' := by
          by_contra hp
          have hp := (honly'.2.2 p hp).2
          rw [hpend] at hp
          cases hp
        obtain ⟨rfl, -⟩ := List.cons.inj (hpend.symm.trans honly'.2.1)
        exact ⟨bc, loc, du, tag, rest, hcall, hfit, rfl, hlink, hrest, honly', heven, rfl⟩

/-- What a process is answered from a pipe. -/
theorem serving_pipe (hpiped : conf.Piped q src) (hwf : t.sys.Wf conf) {p : P} {tag du : ℕ}
    (hlink : (p, tag) ∈ src.links) {r : GetRequest} (hr : r = ⟨true, tag, du⟩) {link : Link}
    {queue : Queue P} {o : SendOutcome (Queue P)}
    (hserve : t.sys.serving conf p q = some (r, link, queue, o)) :
    (conf.ltab p q).find? (·.tag = tag) = some link ∧
      (o = .refused (intBytes 0) ∨ ∃ queue' u, u.length = sizeMul src.dtype.bytes du ∧
        o = .sent queue' (intBytes 1 ++ u)) := by
  obtain ⟨-, hfind, hqueue, ch, hch, hsend⟩ := Dsys.serving_eq_some.mp hserve
  subst hr
  rw [hwf.serviceLink_eq] at hfind
  obtain ⟨link', ch', hfind', hch', hrole, hbytes, -⟩ := hpiped p tag hlink
  obtain rfl := Option.some.inj (hfind.symm.trans hfind')
  obtain rfl := Option.some.inj (hch.symm.trans hch')
  obtain ⟨ch'', hch'', hof⟩ := hwf.queues p link.channel queue hqueue
  obtain rfl := Option.some.inj (hch.symm.trans hch'')
  refine ⟨hfind, ?_⟩
  cases queue with
  | mc121 ring =>
    rw [hof.send_eq (q := ring) rfl] at hsend
    obtain rfl := Option.some.inj hsend
    split
    · exact .inl rfl
    · next hlen =>
      refine .inr ⟨_, _, ?_, rfl⟩
      rw [List.length_take, (hof.ring_wf (i := 0) rfl).length_contents, ← hbytes]
      exact min_eq_left (not_lt.mp hlen)
  | mc12m | nmc12m | farmn =>
    obtain ⟨role, plist, dtype, dunits⟩ := ch
    obtain rfl := hrole
    cases hof.1 _ rfl

/-- What is under way to a process that was answered. -/
theorem Only.answered {p : P} {r : GetRequest} (h : t.Only q p [] [r])
    (hr : (t.sys.service p q).request = some r) (link : Link) (fd : List Byte)
    (granted : P → List (Grant P)) :
    ({ t with sys := t.sys.answered p q r link fd, granted } : Traced P σ).Only q p fd [] := by
  have hpend (p' : P) := Dsys.pending_answered t.sys p q p' q hr link fd
  refine ⟨?_, ?_, fun p' hp' => ⟨?_, ?_⟩⟩
  · simp [Dsys.answered, h.1]
  · have hp := hpend p
    rw [if_pos ⟨rfl, rfl⟩, h.2.1] at hp
    exact (List.cons.inj hp).2.symm
  · simpa [Dsys.answered, hp'] using (h.2.2 p' hp').1
  · have hp := hpend p'
    rw [if_neg fun h => hp' h.1, (h.2.2 p' hp').2] at hp
    exact hp.symm

/-- **An answer to the process**: it is refused, or has its data. -/
theorem Polls.serve (h : t.Polls conf (prog q) src q) (hpiped : conf.Piped q src)
    (hwf : t.sys.Wf conf) {p : P} {s' : Dsys P σ}
    (hstep : t.sys.step A conf prog (.serve p q) = some s') :
    (t.noteServe conf p q s').Polls conf (prog q) src q := by
  obtain ⟨⟨r, link, queue, o⟩, hserve, hstep⟩ := Option.bind_eq_some_iff.mp hstep
  obtain ⟨hreq, -⟩ := Dsys.serving_eq_some.mp hserve
  obtain ⟨bc, loc, du, tag, rest, hcall, hfit, hr, hlink, hrest, honly, heven, hm⟩ := h.asked hreq
  obtain ⟨hfind, rfl | ⟨queue', u, hu, rfl⟩⟩ := serving_pipe hpiped hwf hlink hr hserve
  · obtain rfl := Option.some.inj hstep
    simp only [noteServe, hserve]
    have hm' : (({ t with sys := t.sys.answered p q r link (intBytes 0) } : Traced P σ).sys.comp
        q).micro = some _ := hm
    exact (polls_iff hm').mpr (.inr ⟨bc, loc, du, hcall, hfit,
      .refused hrest (honly.answered hreq link _ _) heven⟩)
  · obtain rfl := Option.some.inj hstep
    have hdrop : (intBytes 1 ++ u).drop (preamble r.condRecv).length = u := by
      rw [hr]
      exact List.drop_left
    simp only [noteServe, hserve, hdrop]
    have honly' : ({ t with sys := t.sys.setQueue p link.channel queue' } : Traced P σ).Only q p
      [] [r] := honly
    generalize hgranted : Function.update t.granted q _ = granted
    generalize hsys : (t.sys.setQueue p link.channel queue').answered p q r link _ = sys
    have hcomp : sys.comp = t.sys.comp := by
      rw [← hsys]
      rfl
    rw [Polls, hcomp, hm]
    refine .inr ⟨bc, loc, du, hcall, hfit, ?_⟩
    refine .granted (hsys ▸ honly'.answered hreq link _ _) ⟨t.granted q, ⟨p, link.channel, u⟩,
      ?_, heven, ⟨?_, tag, link, hlink, hfind, rfl⟩, rfl, rfl⟩
    · rw [← hgranted]
      exact Function.update_self ..
    · rw [hu, sizeMul, Nat.mod_eq_of_lt hfit]

/-! ### Runs -/

/-- **Every step keeps where the process stands.** -/
theorem Polls.step (h : t.Polls conf (prog q) src q) (hpiped : conf.Piped q src)
    (hwf : t.sys.Wf conf) (hsrc : (conf.chans q).srcs[j]? = some src)
    (hany : src.role = .collectAny) (hgets : (prog q).GetsFrom j src) {a : DsysAct P}
    (hstep : t.step A conf prog a = some t') : t'.Polls conf (prog q) src q := by
  obtain ⟨s', hs', rfl⟩ := Option.map_eq_some_iff.mp hstep
  have hmoves := Dsys.moves_of_step hs'
  cases a with
  | comp q' =>
    by_cases hq : q = q'
    · subst hq
      exact h.step_comp hsrc hany hgets hs'
    · have hnote := sys_noteComp prog t q' s'
      obtain ⟨-, -, hgranted, hgets'⟩ := frame_noteComp prog t q' s' hq
      have hsys : s'.comp q = t.sys.comp q ∧ (∀ p, s'.data p q = t.sys.data p q) ∧
          ∀ p, s'.pending p q = t.sys.pending p q := by
        cases hmoves <;>
          exact ⟨by simp [hq], fun p => by simp [hq], fun p => by simp [Dsys.pending, hq]⟩
      refine h.congr (by rw [hnote, hsys.1]) ⟨fun p => ?_, fun p => ?_, hgets',
        congrFun hgranted q⟩
      · rw [hnote, hsys.2.1]
      · rw [hnote, hsys.2.2]
  | serve p q' =>
    by_cases hq : q = q'
    · subst hq
      exact h.serve hpiped hwf hs'
    · cases hmoves with
      | sent hserve =>
        simp only [noteServe, hserve]
        exact h.congr rfl ⟨fun p => by simp [Dsys.answered, hq],
          fun p => by simp [Dsys.answered, Dsys.pending, hq], rfl, Function.update_of_ne hq _ _⟩
      | refused hserve =>
        simp only [noteServe, hserve]
        exact h.congr rfl ⟨fun p => by simp [Dsys.answered, hq],
          fun p => by simp [Dsys.answered, Dsys.pending, hq], rfl, rfl⟩
  | recv p q' =>
    cases hmoves with
    | recv hidle htake =>
      exact h.congr rfl ⟨fun _ => rfl, fun p' => Dsys.pending_recv t.sys p q' p' q hidle htake,
        rfl, rfl⟩
  | deliverRequest q' p =>
    cases hmoves with
    | deliverRequest hdel =>
      exact h.congr rfl ⟨fun _ => rfl, fun p' => Dsys.pending_deliverRequest t.sys p q' p' q hdel,
        rfl, rfl⟩
  | deliverData p q' =>
    cases hmoves with
    | deliverData hdel =>
      refine h.congr rfl ⟨fun p' => ?_, fun _ => rfl, rfl, rfl⟩
      have hstream := Socket.stream_deliver hdel
      by_cases hpq : p' = p ∧ q = q'
      · obtain ⟨rfl, rfl⟩ := hpq
        simp [hstream]
      · simp [hpq]

omit [DecidableEq P] in
/-- Nobody has asked for anything. -/
theorem polls_start (fresh : Fresh P) (init : P → σ) :
    (start conf fresh init).Polls conf (prog q) src q :=
  ⟨fun _ => ⟨rfl, rfl⟩, .nil⟩

/-- **Where the process stands**, in every run. -/
theorem polls_of_reaches {fresh : Fresh P} {init : P → σ}
    (ht : Reaches (step A conf prog) (start conf fresh init) t) (hpiped : conf.Piped q src)
    (hsrc : (conf.chans q).srcs[j]? = some src) (hany : src.role = .collectAny)
    (hgets : (prog q).GetsFrom j src) : t.Polls conf (prog q) src q := by
  have h : t.sys.Wf conf ∧ t.Polls conf (prog q) src q := by
    refine ht.invariant (P := fun t => t.sys.Wf conf ∧ t.Polls conf (prog q) src q) ?_
      ⟨Dsys.wf_start conf fresh init, polls_start fresh init⟩
    rintro t a t' ⟨hwf, h⟩ hstep
    exact ⟨hwf.moves (Dsys.moves_of_step (sys_step hstep)),
      h.step hpiped hwf hsrc hany hgets hstep⟩
  exact h.2

omit [DecidableEq P] in
/-- At most one grant is for a get that has not returned. -/
theorem Polls.grants (h : t.Polls conf (prog q) src q) :
    ∃ gs, gs <+: t.granted q ∧ List.Forall₂ (Answers conf q src) (t.gets q) gs ∧
      ((t.sys.comp q).micro = none → gs = t.granted q ∧ t.Quiet q) := by
  have hahead {p : P} {du : ℕ} {u : List Byte} {m : Micro P (ℤ × List Byte)}
      (hm : (t.sys.comp q).micro = some m) (h : t.Ahead conf src q p du u) :
      ∃ gs, gs <+: t.granted q ∧ List.Forall₂ (Answers conf q src) (t.gets q) gs ∧
        ((t.sys.comp q).micro = none → gs = t.granted q ∧ t.Quiet q) := by
    obtain ⟨gs, g, heq, heven, -⟩ := h
    exact ⟨gs, heq ▸ List.prefix_append .., heven, fun hnone => by simp [hm] at hnone⟩
  have heven {m : Micro P (ℤ × List Byte)} (hm : (t.sys.comp q).micro = some m)
      (h : t.Even conf src q) :
      ∃ gs, gs <+: t.granted q ∧ List.Forall₂ (Answers conf q src) (t.gets q) gs ∧
        ((t.sys.comp q).micro = none → gs = t.granted q ∧ t.Quiet q) :=
    ⟨_, List.prefix_rfl, h, fun hnone => by simp [hm] at hnone⟩
  cases hm : (t.sys.comp q).micro with
  | none =>
    rw [Polls, hm] at h
    exact ⟨_, List.prefix_rfl, h.2, fun _ => ⟨rfl, h.1⟩⟩
  | some m =>
    rw [← hm]
    obtain ⟨-, h, -⟩ | ⟨bc, loc, du, -, -, hget⟩ := (polls_iff hm).mp h
    · exact heven hm h
    · cases hget with
      | poll _ _ h | ask _ _ _ h | asked _ _ _ h | refused _ _ h => exact heven hm h
      | granted _ h | data _ h | store _ h => exact hahead hm h

end Rules

end Traced

/-- The data of the grants of channel `c` of process `p`. -/
def dataFrom [DecidableEq P] (gs : List (Grant P)) (p : P) (c : ℕ) : List Byte :=
  (gs.filter fun g => g.sender = p ∧ g.chan = c).flatMap Grant.data

theorem dataFrom_mono [DecidableEq P] {gs gs' : List (Grant P)} (h : gs <+: gs') (p : P)
    (c : ℕ) : dataFrom gs p c <+: dataFrom gs' p c := by
  obtain ⟨rest, rfl⟩ := h
  rw [dataFrom, dataFrom, List.filter_append, List.flatMap_append]
  exact List.prefix_append ..

/-- 0 and 2 have pipes to 1, which gets from whoever has something. -/
def anyConf : Conf ℕ where
  chans p :=
    if p = 1 then ⟨[], [⟨.collectAny, [(0, 0), (2, 0)], .char⟩]⟩
    else ⟨[⟨.pipe, [1], .char, 2⟩], []⟩
  ltab p q := if p ≠ 1 ∧ q = 1 then [⟨0, 0⟩] else []

/-- 2 puts two units, and 1 gets one. -/
def anyProg (p : ℕ) : Program ℕ :=
  script (if p = 1 then [.get (.src 0) (some [0]) 1]
    else if p = 2 then [.put (.sink 0) (some [7, 8]) 2] else [])

end Libdsys
