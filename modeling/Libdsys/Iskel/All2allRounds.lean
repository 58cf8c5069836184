import Libdsys.Iskel.All2all

/-!
# Iskel/All2allRounds — the rounds of an all-to-all agree

The net of a star has a part for each of the others, with their ring buffers and sockets to and from
the root.  In one run of it the root goes through the parts three times a round: it asks, it
collects and it replicates, and in between the parts move side by side.  Nothing depends on the
schedule, so that run tells how all runs of the system end.

* `Rounds.reaches_round` — one round, from nothing under way to nothing under way.
* `all2all_agrees` — what every process has after a round, and that nobody is stuck before the last.
-/

open Machinery

namespace Libdsys

/-- **The processes of a star go through rounds** on units of its type. -/
structure Rounds (conf : Conf ℤ) (prog : ℤ → Program Exec) (dtype : Dtype) (root : ℤ) (l : List ℤ)
    (R : ℕ) (input out : ℤ → ℕ → List Byte) : Prop extends Star conf dtype root l where
  root_prog : prog root =
    iskelAll2allExec dtype.bytes ⟨root, l.length + 1⟩ root R (input root) (out root)
  progs : ∀ q ∈ l, prog q =
    iskelAll2allExec dtype.bytes ⟨root, l.length + 1⟩ q R (input q) (out q)
  idle : ∀ q ∉ l, q ≠ root → ∀ st, (prog q).call st = none
  length_input : ∀ p r, (input p r).length = dtype.bytes
  length_out : ∀ p r, (out p r).length = (l.length + 1) * dtype.bytes
  num : l.length + 1 < 2 ^ 31
  fits : (l.length + 1) * dtype.bytes < 2 ^ 64

/-- **What everybody has after a round**: the unit of the root, and those of the others. -/
def whole (input : ℤ → ℕ → List Byte) (root : ℤ) (l : List ℤ) (r : ℕ) : List Byte :=
  input root r ++ l.flatMap (input · r)

/-! ## Parts of the net -/

/-- The part an agent is of: the root is one of its own. -/
def Agent.part (root : ℤ) : Agent ℤ → ℤ
  | .comp q => q
  | .service p q => if p = root then q else p

/-- The part a wire is of. -/
def Wire.part (root : ℤ) (l : List ℤ) : Wire ℤ → ℤ
  | .ring p _ i => if p = root then l.getD i root else p
  | .request q p => if q = root then p else q
  | .data p q => if p = root then q else p

/-- Nothing is under way. -/
def nothing (w : Wire ℤ) : List (Wire.Msg ℤ w) := []

/-- A part where the computation thread of `q` is at `comp`, and the service threads are idle. -/
def here (q : ℤ) (comp : Comp ℤ Exec) (chan : (w : Wire ℤ) → List (Wire.Msg ℤ w)) :
    KahnState (Wire.Msg ℤ) (Agent.Local ℤ Exec) where
  loc
    | .comp q' => if q' = q then comp else ⟨.start, none, []⟩
    | .service _ _ => .idle
  chan := chan

/-- The parts: of the others, and of the root. -/
def parts (root : ℤ) (l : List ℤ) (g : ℤ → KahnState (Wire.Msg ℤ) (Agent.Local ℤ Exec))
    (y : KahnState (Wire.Msg ℤ) (Agent.Local ℤ Exec)) (q : ℤ) :
    KahnState (Wire.Msg ℤ) (Agent.Local ℤ Exec) :=
  if q = root then y else if q ∈ l then g q else here q ⟨.start, none, []⟩ nothing

section Parts

variable {root : ℤ} {l : List ℤ} {g g' : ℤ → KahnState (Wire.Msg ℤ) (Agent.Local ℤ Exec)}
  {y y' : KahnState (Wire.Msg ℤ) (Agent.Local ℤ Exec)} {q : ℤ} {comp : Comp ℤ Exec}
  {chan : (w : Wire ℤ) → List (Wire.Msg ℤ w)}

@[simp] theorem loc_here (q : ℤ) (comp : Comp ℤ Exec)
    (chan : (w : Wire ℤ) → List (Wire.Msg ℤ w)) : (here q comp chan).loc (.comp q) = comp :=
  if_pos rfl

@[simp] theorem parts_root : parts root l g y root = y := if_pos rfl

theorem parts_of_mem (hroot : root ∉ l) (hq : q ∈ l) : parts root l g y q = g q := by
  have hne : q ≠ root := fun heq => hroot (heq ▸ hq)
  rw [parts, if_neg hne, if_pos hq]

/-- A computation thread is somewhere else. -/
theorem here_comp (comp' : Comp ℤ Exec) (chan' : (w : Wire ℤ) → List (Wire.Msg ℤ w)) :
    (⟨Function.update (here q comp chan).loc (.comp q) comp', chan'⟩ :
      KahnState (Wire.Msg ℤ) (Agent.Local ℤ Exec)) = here q comp' chan' := by
  refine congrArg₂ KahnState.mk (funext fun a => ?_) rfl
  cases a with
  | comp q' =>
    by_cases hq : q' = q
    · subst hq
      simp [here]
    · have hne : Agent.comp q' ≠ .comp q := fun heq => hq (Agent.comp.inj heq)
      rw [Function.update_of_ne hne]
      simp [here, hq]
  | service p p' => rfl

theorem update_parts_root : Function.update (parts root l g y) root y' = parts root l g y' := by
  ext1 q
  by_cases hq : q = root
  · subst hq
    simp
  · simp [hq, parts]

theorem parts_all (hroot : root ∉ l) : (fun q => if q ∈ l then g' q else parts root l g y q) =
    parts root l g' y := by
  ext1 q
  by_cases hq : q ∈ l
  · simp [hq, parts_of_mem hroot hq]
  · simp [parts, hq]

/-- What was written to two wires was read from them. -/
theorem drained {k₁ k₂ k₃ : Wire ℤ} (x : List (Wire.Msg ℤ k₁)) (y : List (Wire.Msg ℤ k₂))
    (z : List (Wire.Msg ℤ k₃)) :
    Function.update (Function.update (Function.update (Function.update (Function.update nothing
      k₁ x) k₂ y) k₁ []) k₂ []) k₃ z = Function.update nothing k₃ z := by
  funext w
  by_cases h₃ : w = k₃
  · subst h₃
    simp
  · rw [Function.update_of_ne h₃, Function.update_of_ne h₃]
    by_cases h₂ : w = k₂
    · subst h₂
      simp [nothing]
    · rw [Function.update_of_ne h₂]
      by_cases h₁ : w = k₁
      · subst h₁
        simp [nothing]
      · rw [Function.update_of_ne h₁, Function.update_of_ne h₂, Function.update_of_ne h₁]

end Parts

/-! ## Moves -/

variable {A : Arith} {conf : Conf ℤ} {prog : ℤ → Program Exec} {dtype : Dtype} {root : ℤ}
  {l : List ℤ} {R : ℕ} {input out : ℤ → ℕ → List Byte} {fresh : Fresh ℤ}

variable (A conf prog fresh) in
/-- The net of a system in which nothing was done. -/
abbrev startNet : Kahn (Wire.Msg ℤ) (Agent.Local ℤ Exec) :=
  conf.net A prog (Dsys.start conf fresh fun _ => .start)

section Moves

variable {q : ℤ} {comp comp' : Comp ℤ Exec} {chan : (w : Wire ℤ) → List (Wire.Msg ℤ w)}

theorem inside_skip_comp (hop : conf.compOp A prog q comp = .skip comp') :
    Kahn.inside (Agent.part root) (Wire.part root l) (startNet A conf prog fresh) q
      (here q comp chan) (.comp q) = some (here q comp' chan) := by
  refine (Kahn.inside_skip rfl ?_).trans (congrArg some (here_comp comp' chan))
  rw [loc_here]
  exact hop

theorem inside_put_comp {w : Wire ℤ} {ms : List (Wire.Msg ℤ w)}
    (hop : conf.compOp A prog q comp = .put w ms comp') (hw : w.part root l = q)
    (hroom : ∀ n ∈ (startNet A conf prog fresh).cap w, (chan w).length + ms.length ≤ n) :
    Kahn.inside (Agent.part root) (Wire.part root l) (startNet A conf prog fresh) q
      (here q comp chan) (.comp q) =
        some (here q comp' (Function.update chan w (chan w ++ ms))) := by
  refine (Kahn.inside_put rfl hw ?_ hroom).trans (congrArg some (here_comp comp' _))
  rw [loc_here]
  exact hop

theorem inside_take_comp {w : Wire ℤ} {n : ℕ} {next : List (Wire.Msg ℤ w) → Comp ℤ Exec}
    (hop : conf.compOp A prog q comp = .take w n next) (hw : w.part root l = q)
    (hlen : n ≤ (chan w).length) :
    Kahn.inside (Agent.part root) (Wire.part root l) (startNet A conf prog fresh) q
      (here q comp chan) (.comp q) =
        some (here q (next ((chan w).take n)) (Function.update chan w ((chan w).drop n))) := by
  refine (Kahn.inside_take rfl hw ?_ hlen).trans (congrArg some (here_comp _ _))
  rw [loc_here]
  exact hop

/-- **A service thread takes a request, and answers it.** -/
theorem inside_serve {s : KahnState (Wire.Msg ℤ) (Agent.Local ℤ Exec)} {p p' : ℤ} {r : GetRequest}
    {c i n : ℕ} {bs : List Byte} {chan : (w : Wire ℤ) → List (Wire.Msg ℤ w)}
    (hop : conf.serviceOp p p' (.got r) = .take (.ring p c i) n (.replies : List Byte → Serving))
    (hparts : (Agent.service p p').part root = q ∧ (Wire.request p' p).part root l = q ∧
      (Wire.ring p c i).part root l = q ∧ (Wire.data p p').part root l = q)
    (hidle : s.loc (.service p p') = .idle) (hr : s.chan (.request p' p) = [r])
    (hbs : s.chan (.ring p c i) = bs) (hn : bs.length = n) (hdata : s.chan (.data p p') = [])
    (hchan : Function.update (Function.update (Function.update s.chan (.request p' p) [])
      (.ring p c i) []) (.data p p') bs = chan) :
    Reaches (Kahn.inside (Agent.part root) (Wire.part root l) (startNet A conf prog fresh) q)
      s ⟨s.loc, chan⟩ := by
  obtain ⟨hagent, hrequest, hring, hpart⟩ := hparts
  set N := startNet A conf prog fresh
  let s₁ : KahnState (Wire.Msg ℤ) (Agent.Local ℤ Exec) :=
    ⟨Function.update s.loc (.service p p') (.got r),
      Function.update s.chan (.request p' p) []⟩
  let s₂ : KahnState (Wire.Msg ℤ) (Agent.Local ℤ Exec) :=
    ⟨Function.update s.loc (.service p p') (.replies bs),
      Function.update (Function.update s.chan (.request p' p) []) (.ring p c i) []⟩
  have htake : N.prog (.service p p') (s.loc (.service p p')) =
      .take (.request p' p) 1 fun rs => (rs.head?.map Serving.got).getD .idle := by
    rw [hidle]
    rfl
  have h₁ : Kahn.inside (Agent.part root) (Wire.part root l) N q s (.service p p') = some s₁ := by
    rw [Kahn.inside_take hagent hrequest htake (by rw [hr]; rfl), hr]
    rfl
  have hgot : N.prog (.service p p') (s₁.loc (.service p p')) =
      .take (.ring p c i) n (.replies : List Byte → Serving) := by
    rw [show s₁.loc (.service p p') = .got r from Function.update_self ..]
    exact hop
  have hbs₁ : s₁.chan (.ring p c i) = bs := by
    simp [s₁, hbs]
  have h₂ : Kahn.inside (Agent.part root) (Wire.part root l) N q s₁ (.service p p') =
      some s₂ := by
    rw [Kahn.inside_take hagent hring hgot (by rw [hbs₁, hn]), hbs₁, List.take_of_length_le hn.le,
      List.drop_of_length_le hn.le]
    simp only [s₁, s₂, Function.update_idem]
  have hreplies : N.prog (.service p p') (s₂.loc (.service p p')) = .put (.data p p') bs .idle := by
    rw [show s₂.loc (.service p p') = .replies bs from Function.update_self ..]
    rfl
  have hdata₂ : s₂.chan (.data p p') = [] := by
    simp [s₂, hdata]
  have h₃ : Kahn.inside (Agent.part root) (Wire.part root l) N q s₂ (.service p p') =
      some ⟨s.loc, chan⟩ := by
    rw [Kahn.inside_put hagent hpart hreplies (fun n hn => nomatch hn), hdata₂, List.nil_append]
    simp only [s₂, Function.update_idem, hchan, ← hidle, Function.update_eq_self]
  exact .head h₁ (.head h₂ (.single h₃))

/-- The root writes to a part. -/
theorem step_put_root {f : ℤ → KahnState (Wire.Msg ℤ) (Agent.Local ℤ Exec)} (hne : q ≠ root)
    {rc rc' : Comp ℤ Exec} {rchan : (w : Wire ℤ) → List (Wire.Msg ℤ w)}
    (hroot : f root = here root rc rchan) (hq : f q = here q comp chan) {w : Wire ℤ}
    {ms : List (Wire.Msg ℤ w)} (hop : conf.compOp A prog root rc = .put w ms rc')
    (hw : w.part root l = q)
    (hroom : ∀ n ∈ (startNet A conf prog fresh).cap w, (chan w).length + ms.length ≤ n) :
    (startNet A conf prog fresh).step (Kahn.glue (Agent.part root) (Wire.part root l) f)
      (.comp root) = some (Kahn.glue (Agent.part root) (Wire.part root l)
        (Function.update (Function.update f root (here root rc' rchan)) q
          (here q comp (Function.update chan w (chan w ++ ms))))) := by
  have hprog : (startNet A conf prog fresh).prog (.comp root)
      ((f ((Agent.comp root).part root)).loc (.comp root)) = .put w ms rc' := by
    rw [Agent.part, hroot, loc_here]
    exact hop
  rw [Kahn.step_glue_put hprog (by rw [hw, hq]; exact hroom)]
  simp only [Kahn.setChan, Kahn.setLoc, Agent.part, hw, hroot, hq, here_comp,
    Function.update_of_ne hne]
  rfl

/-- The root reads from a part. -/
theorem step_take_root {f : ℤ → KahnState (Wire.Msg ℤ) (Agent.Local ℤ Exec)} (hne : q ≠ root)
    {rc : Comp ℤ Exec} {rchan : (w : Wire ℤ) → List (Wire.Msg ℤ w)}
    (hroot : f root = here root rc rchan) (hq : f q = here q comp chan) {w : Wire ℤ} {n : ℕ}
    {next : List (Wire.Msg ℤ w) → Comp ℤ Exec}
    (hop : conf.compOp A prog root rc = .take w n next) (hw : w.part root l = q)
    (hlen : n ≤ (chan w).length) :
    (startNet A conf prog fresh).step (Kahn.glue (Agent.part root) (Wire.part root l) f)
      (.comp root) = some (Kahn.glue (Agent.part root) (Wire.part root l)
        (Function.update (Function.update f root (here root (next ((chan w).take n)) rchan)) q
          (here q comp (Function.update chan w ((chan w).drop n))))) := by
  have hprog : (startNet A conf prog fresh).prog (.comp root)
      ((f ((Agent.comp root).part root)).loc (.comp root)) = .take w n next := by
    rw [Agent.part, hroot, loc_here]
    exact hop
  rw [Kahn.step_glue_take hprog (by rw [hw, hq]; exact hlen)]
  simp only [Kahn.setChan, Kahn.setLoc, Agent.part, hw, hroot, hq, here_comp,
    Function.update_of_ne hne]
  rfl

end Moves

/-! ## The calls -/

/-- What the root has still to read, and what it does then. -/
def collecting (bytes : ℕ) (rest : List ℤ) (off : ℕ) (loc : List Byte) : Micro ℤ (ℤ × List Byte) :=
  (readEach bytes (rest.map (·, 0)) off loc).bind fun loc => .done (0, loc)

/-- Whom it has still to ask, and what it does then. -/
def asking (bytes : ℕ) (l rest : List ℤ) (loc : List Byte) : Micro ℤ (ℤ × List Byte) :=
  (requestAll 1 (rest.map (·, 0))).bind fun _ => collecting bytes l 0 loc

/-- Whom it has still to give the whole. -/
def replicating (l rest : List ℤ) (all : List Byte) : Micro ℤ (ℤ × List Byte) :=
  (replicateEach l 0 all all.length rest).bind fun ret => .done (ret, all)

section Calls

variable {q : ℤ} {loc : List Byte} {n : ℕ}

theorem bcCall_unit (h : Star conf dtype root l) (hq : q ∈ l) (hloc : loc.length = dtype.bytes)
    (hfits : dtype.bytes < 2 ^ 64) :
    bcCall A (conf.chans q) (.put (.sink 0) (some loc) 1) = .put 0 0 loc (.done (0, loc)) := by
  have hread : readAt loc 0 (sizeMul dtype.bytes 1) = some loc := by
    rw [sizeMul_of_lt (by omega), Nat.mul_one, ← hloc, readAt_eq_some (Nat.zero_add _).le]
    simp
  rw [h.chans q hq]
  change Micro.bind (Micro.bind (.ofOption (readAt loc 0 (sizeMul dtype.bytes 1))) _) _ = _
  rw [hread]
  rfl

theorem bcCall_whole (h : Star conf dtype root l) (hq : q ∈ l) :
    bcCall A (conf.chans q) (.get (.src 0) (some loc) ((n + 1 : ℕ) : ℤ)) =
      .request root ⟨false, 0, n + 1⟩ (.read root (sizeMul dtype.bytes (n + 1)) fun bs =>
        (store loc 0 bs).bind fun loc => .done (0, loc)) := by
  have hn : ¬ ((n + 1 : ℕ) : ℤ) < 1 := by omega
  rw [h.chans q hq]
  simp only [bcCall, bcGet, List.getElem?_cons_zero, if_neg hn]
  rfl

theorem bcCall_collect (h : Star conf dtype root l) (hfits : dtype.bytes < 2 ^ 64) :
    bcCall A (conf.chans root) (.get (.src 0) (some loc) 1) = asking dtype.bytes l l loc := by
  have hsz : sizeMul dtype.bytes 1 = dtype.bytes := by rw [sizeMul_of_lt (by omega), Nat.mul_one]
  rw [h.root_chans]
  change rCollect ⟨.collect, l.map (·, 0), dtype⟩ loc 1 = _
  simp only [rCollect, hsz]
  rfl

theorem bcCall_replicate (h : Star conf dtype root l)
    (hloc : loc.length = sizeMul dtype.bytes (n + 1)) :
    bcCall A (conf.chans root) (.put (.sink 0) (some loc) ((n + 1 : ℕ) : ℤ)) =
      replicating l l loc := by
  have hn : ¬ ((n + 1 : ℕ) : ℤ) < 1 := by omega
  rw [h.root_chans, replicating, hloc]
  simp only [bcCall, bcPut, List.getElem?_cons_zero, if_neg hn]
  rfl

end Calls

/-! ## A round -/

/-- One of the others, before round `r`. -/
def leafAt (input : ℤ → ℕ → List Byte) (root : ℤ) (l : List ℤ) (r : ℕ) : Comp ℤ Exec :=
  ⟨⟨false, [], (List.range r).map (whole input root l)⟩, none,
    (List.range r).map fun r => (0, whole input root l r)⟩

/-- It has put its unit. -/
def leafHalf (input : ℤ → ℕ → List Byte) (root : ℤ) (l : List ℤ) (r : ℕ) : Comp ℤ Exec :=
  { leafAt input root l r with state := { (leafAt input root l r).state with half := true } }

/-- The root, before round `r`. -/
def rootAt (input : ℤ → ℕ → List Byte) (root : ℤ) (l : List ℤ) (r : ℕ) : Comp ℤ Exec :=
  ⟨⟨false, [], (List.range r).map (whole input root l)⟩, none,
    (List.range r).map fun r => (0, l.flatMap (input · r))⟩

/-- It has what it replicates. -/
def rootHalf (input : ℤ → ℕ → List Byte) (root : ℤ) (l : List ℤ) (r : ℕ) : Comp ℤ Exec :=
  ⟨⟨true, whole input root l r, (List.range r).map (whole input root l)⟩, none,
    (List.range (r + 1)).map fun r => (0, l.flatMap (input · r))⟩

namespace Rounds

variable {q : ℤ} {r : ℕ}

theorem bytes_lt (h : Rounds conf prog dtype root l R input out) : dtype.bytes < 2 ^ 64 :=
  lt_of_le_of_lt (Nat.le_mul_of_pos_left _ (Nat.succ_pos _)) h.fits

theorem length_flatMap (h : Rounds conf prog dtype root l R input out) (l' : List ℤ) (r : ℕ) :
    (l'.flatMap (input · r)).length = l'.length * dtype.bytes := by
  induction l' with
  | nil => simp
  | cons q l' ih =>
    rw [List.flatMap_cons, List.length_append, ih, h.length_input, List.length_cons, Nat.succ_mul,
      Nat.add_comm]

theorem length_whole (h : Rounds conf prog dtype root l R input out) (r : ℕ) :
    (whole input root l r).length = (l.length + 1) * dtype.bytes := by
  rw [whole, List.length_append, h.length_flatMap, h.length_input, Nat.succ_mul, Nat.add_comm]

/-- All units. -/
theorem sizeMul_num (h : Rounds conf prog dtype root l R input out) :
    sizeMul dtype.bytes (l.length + 1) = (l.length + 1) * dtype.bytes := by
  rw [sizeMul_of_lt (by rw [Nat.mul_comm]; exact h.fits), Nat.mul_comm]

/-- The ring buffer of a part has room for its unit. -/
theorem cap_unit (h : Rounds conf prog dtype root l R input out) (hq : q ∈ l) :
    (startNet A conf prog fresh).cap (.ring q 0 0) = some dtype.bytes := by
  have hch : (conf.chans q).sinks[0]? = some ⟨.pipe, [root], dtype, 1⟩ := by
    rw [h.chans q hq]
    rfl
  obtain ⟨raw, hring⟩ := Dsys.exists_ring?_start (k := 0) fresh (fun _ => Exec.start) (.inl rfl)
    hch Nat.one_pos
  change Option.map Mc121.size _ = _
  rw [hring]
  change some (unitsSize 1 dtype.bytes) = _
  rw [unitsSize, if_pos (by decide), sizeMul_of_lt (by rw [Nat.one_mul]; exact h.bytes_lt),
    Nat.one_mul]

/-- And its ring buffer at the root for all units. -/
theorem cap_whole (h : Rounds conf prog dtype root l R input out) (hq : q ∈ l) :
    (startNet A conf prog fresh).cap (.ring root 0 (l.idxOf q)) =
      some ((l.length + 1) * dtype.bytes) := by
  have hch : (conf.chans root).sinks[0]? = some ⟨.replicate, l, dtype, l.length + 1⟩ := by
    rw [h.root_chans]
    rfl
  obtain ⟨raw, hring⟩ := Dsys.exists_ring?_start (k := l.idxOf q) fresh (fun _ => Exec.start)
    (.inr ⟨.inl rfl, h.nodup⟩) hch (List.idxOf_lt_length_of_mem hq)
  change Option.map Mc121.size _ = _
  rw [hring]
  change some (unitsSize (l.length + 1) dtype.bytes) = _
  rw [unitsSize, if_pos h.num, sizeMul_of_lt h.fits]

/-- The service thread of a part answers from its pipe. -/
theorem serviceOp_unit (h : Rounds conf prog dtype root l R input out) (hq : q ∈ l) :
    conf.serviceOp q root (.got ⟨false, 0, 1⟩) =
      .take (.ring q 0 0) dtype.bytes (.replies : List Byte → Serving) := by
  have hsz : sizeMul dtype.bytes 1 = dtype.bytes := by
    rw [sizeMul_of_lt (by rw [Nat.mul_one]; exact h.bytes_lt), Nat.mul_one]
  simp [Conf.serviceOp, h.up q hq, h.chans q hq, Conf.reader, Conf.node, hsz]

/-- The service thread of the root for a part answers from its ring buffer. -/
theorem serviceOp_whole (h : Rounds conf prog dtype root l R input out) (hq : q ∈ l) :
    conf.serviceOp root q (.got ⟨false, 0, l.length + 1⟩) =
      .take (.ring root 0 (l.idxOf q)) ((l.length + 1) * dtype.bytes)
        (.replies : List Byte → Serving) := by
  have hget : l[l.idxOf q]? = some q := List.getElem?_idxOf hq
  simp [Conf.serviceOp, h.down q hq, h.root_chans, Conf.reader, Conf.node, h.sizeMul_num, hget]

theorem up_parts (h : Rounds conf prog dtype root l R input out) (hq : q ∈ l) :
    (Agent.service q root).part root = q ∧ (Wire.request root q).part root l = q ∧
      (Wire.ring q 0 0).part root l = q ∧ (Wire.data q root).part root l = q := by
  simp [Agent.part, Wire.part, h.ne_root hq]

theorem down_parts (h : Rounds conf prog dtype root l R input out) (hq : q ∈ l) :
    (Agent.service root q).part root = q ∧ (Wire.request q root).part root l = q ∧
      (Wire.ring root 0 (l.idxOf q)).part root l = q ∧ (Wire.data root q).part root l = q := by
  simp [Agent.part, Wire.part, h.ne_root hq, List.getElem?_idxOf hq]

/-- What one of the others calls first. -/
theorem call_leafAt (h : Rounds conf prog dtype root l R input out) (hq : q ∈ l) (hr : r < R) :
    (prog q).call (leafAt input root l r).state = some (.put (.sink 0) (some (input q r)) 1) := by
  simp [h.progs q hq, iskelAll2allExec, leafAt, h.ne_root hq, hr]

/-- And then. -/
theorem call_leafHalf (h : Rounds conf prog dtype root l R input out) (hq : q ∈ l) (hr : r < R) :
    (prog q).call (leafHalf input root l r).state =
      some (.get (.src 0) (some (out q r)) ((l.length + 1 : ℕ) : ℤ)) := by
  simp [h.progs q hq, iskelAll2allExec, leafHalf, leafAt, h.ne_root hq, hr]

/-- What the root calls first. -/
theorem call_rootAt (h : Rounds conf prog dtype root l R input out) (hr : r < R) :
    (prog root).call (rootAt input root l r).state =
      some (.get (.src 0) (some ((out root r).drop dtype.bytes)) 1) := by
  simp [h.root_prog, iskelAll2allExec, rootAt, hr]

/-- And then. -/
theorem call_rootHalf (h : Rounds conf prog dtype root l R input out) (hr : r < R) :
    (prog root).call (rootHalf input root l r).state =
      some (.put (.sink 0) (some (whole input root l r)) ((l.length + 1 : ℕ) : ℤ)) := by
  simp [h.root_prog, iskelAll2allExec, rootHalf, hr]

variable (A conf) in
/-- A call is made. -/
theorem compOp_call {comp : Comp ℤ Exec} {call : Call} (hm : comp.micro = none)
    (hcall : (prog q).call comp.state = some call) : conf.compOp A prog q comp =
      .skip { comp with micro := some (bcCall A (conf.chans q) call) } := by
  simp [Conf.compOp, hm, hcall]

/-- **One of the others puts its unit**, which its service thread sends. -/
theorem reaches_put (h : Rounds conf prog dtype root l R input out) (hq : q ∈ l) (hr : r < R) :
    Reaches (Kahn.inside (Agent.part root) (Wire.part root l) (startNet A conf prog fresh) q)
      (here q (leafAt input root l r) (Function.update nothing (.request root q) [⟨false, 0, 1⟩]))
      (here q (leafHalf input root l r) (Function.update nothing (.data q root) (input q r))) := by
  have hcall := compOp_call A conf rfl (h.call_leafAt hq hr)
  rw [bcCall_unit h.toStar hq (h.length_input q r) h.bytes_lt] at hcall
  refine .head (inside_skip_comp hcall) (.head (inside_put_comp rfl (h.up_parts hq).2.2.1 ?_)
    (.head (inside_skip_comp rfl) ?_))
  · intro n hn
    rw [h.cap_unit hq] at hn
    obtain rfl := Option.some.inj hn
    simp [nothing, h.length_input]
  · have hreturns : Dsys.returns (prog q) { leafAt input root l r with
        micro := some (.done (0, input q r)) } (0, input q r) = leafHalf input root l r := by
      simp only [Dsys.returns, h.call_leafAt hq hr]
      simp [h.progs q hq, iskelAll2allExec, leafHalf, leafAt, h.ne_root hq]
    have hring : Function.update nothing (.request root q) [⟨false, 0, 1⟩] (.ring q 0 0) =
        [] := by
      rw [Function.update_of_ne (by simp)]
      rfl
    rw [hring, List.nil_append]
    refine hreturns ▸ inside_serve (h.serviceOp_unit hq) (h.up_parts hq) rfl ?_ ?_
      (h.length_input q r) ?_ (drained _ _ _)
    · simp [here]
    · simp [here]
    · simp [here, nothing]

/-- A buffer that is overwritten as a whole. -/
theorem store_whole {loc bs : List Byte} (hlen : bs.length = loc.length) :
    (store loc 0 bs : Micro ℤ (List Byte)) = .done bs := by
  rw [store, writeAt_eq_some (by omega), overlay]
  simp only [hlen, Nat.zero_add, List.take_zero, List.nil_append, List.drop_length,
    List.append_nil]
  rfl

/-- **It gets the whole**, which the service thread of the root sends. -/
theorem reaches_get (h : Rounds conf prog dtype root l R input out) (hq : q ∈ l) (hr : r < R) :
    Reaches (Kahn.inside (Agent.part root) (Wire.part root l) (startNet A conf prog fresh) q)
      (here q (leafHalf input root l r)
        (Function.update nothing (.ring root 0 (l.idxOf q)) (whole input root l r)))
      (here q (leafAt input root l (r + 1)) nothing) := by
  have hcall := compOp_call A conf rfl (h.call_leafHalf hq hr)
  rw [bcCall_whole h.toStar hq, h.sizeMul_num] at hcall
  refine .head (inside_skip_comp hcall) (.head (inside_put_comp rfl (h.down_parts hq).2.1
    fun n hn => nomatch hn) ?_)
  have hrequest : Function.update nothing (.ring root 0 (l.idxOf q)) (whole input root l r)
      (.request q root) = [] := by
    rw [Function.update_of_ne (by simp)]
    rfl
  rw [hrequest, List.nil_append, Function.update_comm (by simp)]
  refine (inside_serve (h.serviceOp_whole hq) (h.down_parts hq) rfl ?_ ?_ (h.length_whole r) ?_
    (drained _ _ _)).trans ?_
  · simp [here]
  · simp [here]
  · simp [here, nothing]
  · have hlen := h.length_whole (r := r)
    have hstore : ((store (out q r) 0 (whole input root l r)).bind fun loc =>
        .done (0, loc) : Micro ℤ (ℤ × List Byte)) = .done (0, whole input root l r) := by
      rw [store_whole (by rw [hlen, h.length_out])]
      rfl
    have hreturns : Dsys.returns (prog q) { leafHalf input root l r with
        micro := some (.done (0, whole input root l r)) } (0, whole input root l r) =
        leafAt input root l (r + 1) := by
      simp only [Dsys.returns, h.call_leafHalf hq hr]
      simp [h.progs q hq, iskelAll2allExec, leafHalf, leafAt, h.ne_root hq, List.range_succ]
    have hlast : Kahn.inside (Agent.part root) (Wire.part root l) (startNet A conf prog fresh) q
        (here q { leafHalf input root l r with micro := some (.done (0, whole input root l r)) }
          nothing) (.comp q) = some (here q (leafAt input root l (r + 1)) nothing) :=
      hreturns ▸ inside_skip_comp rfl
    refine .head (inside_take_comp rfl (h.down_parts hq).2.2.2 (by simp [hlen])) ?_
    have hnothing : Function.update nothing (.data root q) ([] : List Byte) = nothing :=
      Function.update_eq_self _ nothing
    simp only [Function.update_self, Function.update_idem, ← hlen, List.take_length,
      List.drop_length, hstore, hnothing]
    exact .single hlast

/-! ### All parts -/

section Whole

variable {g g' : ℤ → KahnState (Wire.Msg ℤ) (Agent.Local ℤ Exec)}
  {y y' : KahnState (Wire.Msg ℤ) (Agent.Local ℤ Exec)}

theorem reaches_root (hy : Reaches (Kahn.inside (Agent.part root) (Wire.part root l)
      (startNet A conf prog fresh) root) y y') :
    Reaches (startNet A conf prog fresh).step
      (Kahn.glue (Agent.part root) (Wire.part root l) (parts root l g y))
      (Kahn.glue (Agent.part root) (Wire.part root l) (parts root l g y')) := by
  have hroot : parts root l g y root = y := parts_root
  have hglue := Kahn.reaches_glue (f := parts root l g y) (i := root) (u := y') (hroot ▸ hy)
  rwa [update_parts_root] at hglue

theorem reaches_others (h : Star conf dtype root l)
    (hg : ∀ q ∈ l, Reaches (Kahn.inside (Agent.part root) (Wire.part root l)
      (startNet A conf prog fresh) q) (g q) (g' q)) :
    Reaches (startNet A conf prog fresh).step
      (Kahn.glue (Agent.part root) (Wire.part root l) (parts root l g y))
      (Kahn.glue (Agent.part root) (Wire.part root l) (parts root l g' y)) := by
  have hparts := Kahn.reaches_parts h.nodup (f := parts root l g y) (g := g') fun q hq => by
    rw [parts_of_mem h.root_not_mem hq]
    exact hg q hq
  rwa [parts_all h.root_not_mem] at hparts

variable (g') in
/-- The root goes through the parts. -/
theorem reaches_through (h : Star conf dtype root l)
    {y : List ℤ → List ℤ → KahnState (Wire.Msg ℤ) (Agent.Local ℤ Exec)}
    (hstep : ∀ pre q post (f : ℤ → KahnState (Wire.Msg ℤ) (Agent.Local ℤ Exec)),
      l = pre ++ q :: post → q ∈ l → f root = y pre (q :: post) → f q = g q →
      (startNet A conf prog fresh).step (Kahn.glue (Agent.part root) (Wire.part root l) f)
        (.comp root) = some (Kahn.glue (Agent.part root) (Wire.part root l)
          (Function.update (Function.update f root (y (pre ++ [q]) post)) q (g' q)))) :
    Reaches (startNet A conf prog fresh).step
      (Kahn.glue (Agent.part root) (Wire.part root l) (parts root l g (y [] l)))
      (Kahn.glue (Agent.part root) (Wire.part root l) (parts root l g' (y l []))) := by
  have hsweep := Kahn.reaches_sweep h.nodup h.root_not_mem (f := parts root l g (y [] l))
    (fun pre q post f hl => hstep pre q post f hl (by simp [hl])) parts_root
    fun q hq => parts_of_mem h.root_not_mem hq
  rwa [parts_all h.root_not_mem, update_parts_root] at hsweep

/-- **The root asks all others.** -/
theorem reaches_ask (h : Rounds conf prog dtype root l R input out) (hr : r < R) :
    Reaches (startNet A conf prog fresh).step
      (Kahn.glue (Agent.part root) (Wire.part root l)
        (parts root l (fun q => here q (leafAt input root l r) nothing)
          (here root (rootAt input root l r) nothing)))
      (Kahn.glue (Agent.part root) (Wire.part root l)
        (parts root l (fun q => here q (leafAt input root l r)
            (Function.update nothing (.request root q) [⟨false, 0, 1⟩]))
          (here root { rootAt input root l r with
            micro := some (collecting dtype.bytes l 0 ((out root r).drop dtype.bytes)) }
            nothing))) := by
  have hcall := compOp_call A conf rfl (h.call_rootAt hr)
  rw [bcCall_collect h.toStar h.bytes_lt] at hcall
  refine (reaches_root (.single (inside_skip_comp hcall))).trans ?_
  refine reaches_through _ (y := fun _ post => here root { rootAt input root l r with
    micro := some (asking dtype.bytes l post ((out root r).drop dtype.bytes)) } nothing) h.toStar
    fun pre q post f _ hq hroot hf => ?_
  exact step_put_root (h.ne_root hq) hroot hf rfl (h.up_parts hq).2.1 fun n hn => nomatch hn

/-- What the root has of its buffer after some reads. -/
theorem store_gathered (head tail bs : List Byte) (hlen : bs.length ≤ tail.length) :
    (store (head ++ tail) head.length bs : Micro ℤ (List Byte)) =
      .done (head ++ bs ++ tail.drop bs.length) := by
  have hfit : head.length + bs.length ≤ (head ++ tail).length := by
    rw [List.length_append]
    omega
  have hdrop : (head ++ tail).drop (head.length + bs.length) = tail.drop bs.length := by
    rw [← List.drop_drop, List.drop_left]
  rw [store, writeAt_eq_some hfit, overlay, List.take_left, hdrop]
  rfl

/-- **The root collects the units of all others.** -/
theorem reaches_collect (h : Rounds conf prog dtype root l R input out) (hr : r < R) :
    Reaches (startNet A conf prog fresh).step
      (Kahn.glue (Agent.part root) (Wire.part root l)
        (parts root l (fun q => here q (leafHalf input root l r)
            (Function.update nothing (.data q root) (input q r)))
          (here root { rootAt input root l r with
            micro := some (collecting dtype.bytes l 0 ((out root r).drop dtype.bytes)) }
            nothing)))
      (Kahn.glue (Agent.part root) (Wire.part root l)
        (parts root l (fun q => here q (leafHalf input root l r) nothing)
          (here root { rootHalf input root l r with
            micro := some (replicating l l (whole input root l r)) } nothing))) := by
  have hbuf : ((out root r).drop dtype.bytes).length = l.length * dtype.bytes := by
    rw [List.length_drop, h.length_out, Nat.succ_mul, Nat.add_sub_cancel]
  generalize (out root r).drop dtype.bytes = buf at hbuf
  let gathered (pre post : List ℤ) : Micro ℤ (ℤ × List Byte) :=
    collecting dtype.bytes post (pre.flatMap (input · r)).length
      (pre.flatMap (input · r) ++ buf.drop (pre.flatMap (input · r)).length)
  have hgathered : gathered [] l = collecting dtype.bytes l 0 buf := rfl
  rw [← hgathered]
  refine (reaches_through (fun q => here q (leafHalf input root l r) nothing)
    (y := fun pre post => here root { rootAt input root l r with
      micro := some (gathered pre post) } nothing) h.toStar
    fun pre q post f hl hq hroot hf => ?_).trans ?_
  · have hhead : (pre.flatMap (input · r)).length + dtype.bytes =
        ((pre ++ [q]).flatMap (input · r)).length := by
      simp [h.length_input]
    let next (bs : List Byte) : Micro ℤ (ℤ × List Byte) :=
      ((store (pre.flatMap (input · r) ++ buf.drop (pre.flatMap (input · r)).length)
        (pre.flatMap (input · r)).length bs).bind fun loc => readEach dtype.bytes
          (post.map (·, 0)) ((pre.flatMap (input · r)).length + dtype.bytes) loc).bind
        fun loc => .done (0, loc)
    have hop : conf.compOp A prog root { rootAt input root l r with
        micro := some (gathered pre (q :: post)) } = .take (.data q root) dtype.bytes fun bs =>
        { rootAt input root l r with micro := some (next bs) } := rfl
    have hnext : next (input q r) = gathered (pre ++ [q]) post := by
      have htail : (input q r).length ≤ (buf.drop (pre.flatMap (input · r)).length).length := by
        rw [List.length_drop, hbuf, hl, h.length_flatMap, h.length_input, List.length_append,
          List.length_cons, Nat.add_mul, Nat.succ_mul]
        omega
      simp only [next, store_gathered _ _ _ htail, gathered, hhead, List.drop_drop,
        h.length_input]
      rw [List.flatMap_append, List.flatMap_singleton]
      rfl
    refine (step_take_root (h.ne_root hq) hroot hf hop (h.up_parts hq).2.2.2 ?_).trans ?_
    · simp [h.length_input]
    · have hnothing : Function.update nothing (.data q root) ([] : List Byte) = nothing :=
        Function.update_eq_self _ nothing
      rw [Function.update_self, List.take_of_length_le (h.length_input q r).le,
        List.drop_of_length_le (h.length_input q r).le, Function.update_idem, hnothing, hnext]
  · have hdone : gathered l [] = .done (0, l.flatMap (input · r)) := by
      have hdrop : buf.drop (l.flatMap (input · r)).length = [] := by
        rw [h.length_flatMap, ← hbuf, List.drop_length]
      simp only [gathered, hdrop, List.append_nil]
      rfl
    have hreturns : Dsys.returns (prog root) { rootAt input root l r with
        micro := some (.done (0, l.flatMap (input · r))) } (0, l.flatMap (input · r)) =
        rootHalf input root l r := by
      simp only [Dsys.returns, h.call_rootAt hr]
      simp [h.root_prog, iskelAll2allExec, rootAt, rootHalf, whole, List.range_succ,
        List.take_of_length_le (h.length_input root r).le]
    have hcall := compOp_call A conf rfl (h.call_rootHalf hr)
    rw [bcCall_replicate h.toStar (by rw [h.length_whole, h.sizeMul_num])] at hcall
    rw [hdone]
    exact reaches_root (.head (inside_skip_comp (congrArg KahnOp.skip hreturns))
      (.single (inside_skip_comp hcall)))

/-- **The root gives the whole to all others.** -/
theorem reaches_replicate (h : Rounds conf prog dtype root l R input out) (hr : r < R) :
    Reaches (startNet A conf prog fresh).step
      (Kahn.glue (Agent.part root) (Wire.part root l)
        (parts root l (fun q => here q (leafHalf input root l r) nothing)
          (here root { rootHalf input root l r with
            micro := some (replicating l l (whole input root l r)) } nothing)))
      (Kahn.glue (Agent.part root) (Wire.part root l)
        (parts root l (fun q => here q (leafHalf input root l r)
            (Function.update nothing (.ring root 0 (l.idxOf q)) (whole input root l r)))
          (here root (rootAt input root l (r + 1)) nothing))) := by
  refine (reaches_through (fun q => here q (leafHalf input root l r)
      (Function.update nothing (.ring root 0 (l.idxOf q)) (whole input root l r)))
    (y := fun _ post => here root { rootHalf input root l r with
      micro := some (replicating l post (whole input root l r)) } nothing) h.toStar
    fun pre q post f _ hq hroot hf => ?_).trans ?_
  · have hop : conf.compOp A prog root { rootHalf input root l r with
        micro := some (replicating l (q :: post) (whole input root l r)) } =
        .put (.ring root 0 (l.idxOf q)) (whole input root l r) { rootHalf input root l r with
          micro := some (replicating l post (whole input root l r)) } := by
      have hread : readAt (whole input root l r) 0 (whole input root l r).length =
          some (whole input root l r) := by
        rw [readAt_eq_some (Nat.zero_add _).le]
        simp
      simp only [replicating, replicateEach, hread]
      rfl
    refine step_put_root (h.ne_root hq) hroot hf hop (h.down_parts hq).2.2.1 fun n hn => ?_
    rw [h.cap_whole hq] at hn
    obtain rfl := Option.some.inj hn
    change 0 + (whole input root l r).length ≤ _
    rw [h.length_whole, Nat.zero_add]
  · have hreturns : Dsys.returns (prog root) { rootHalf input root l r with
        micro := some (.done (0, whole input root l r)) } (0, whole input root l r) =
        rootAt input root l (r + 1) := by
      simp only [Dsys.returns, h.call_rootHalf hr]
      simp [h.root_prog, iskelAll2allExec, rootAt, rootHalf, List.range_succ]
    exact reaches_root (.single (inside_skip_comp (congrArg KahnOp.skip hreturns)))

end Whole

end Rounds

/-- Between two rounds, when nothing is under way. -/
def between (input : ℤ → ℕ → List Byte) (root : ℤ) (l : List ℤ) (r : ℕ) :
    KahnState (Wire.Msg ℤ) (Agent.Local ℤ Exec) :=
  Kahn.glue (Agent.part root) (Wire.part root l)
    (parts root l (fun q => here q (leafAt input root l r) nothing)
      (here root (rootAt input root l r) nothing))

section Between

variable {q : ℤ} {r : ℕ}

theorem between_root : (between input root l r).loc (.comp root) = rootAt input root l r := by
  change (parts root l _ _ root).loc _ = _
  rw [parts_root, loc_here]

theorem between_leaf (hroot : root ∉ l) (hq : q ∈ l) :
    (between input root l r).loc (.comp q) = leafAt input root l r := by
  change (parts root l _ _ q).loc _ = _
  rw [parts_of_mem hroot hq, loc_here]

theorem between_outside (hq : q ∉ l) (hne : q ≠ root) :
    (between input root l r).loc (.comp q) = ⟨.start, none, []⟩ := by
  change (parts root l _ _ q).loc _ = _
  rw [parts, if_neg hne, if_neg hq, loc_here]

theorem between_service (p p' : ℤ) : (between input root l r).loc (.service p p') = .idle := by
  change (parts root l _ _ _).loc _ = _
  rw [parts]
  split
  · rfl
  · split <;> rfl

theorem between_chan (w : Wire ℤ) : (between input root l r).chan w = [] := by
  change (parts root l _ _ _).chan w = _
  rw [parts]
  split
  · rfl
  · split <;> rfl

end Between

namespace Rounds

variable {q : ℤ} {r : ℕ}

/-- **A round**: from nothing under way to nothing under way. -/
theorem reaches_round (h : Rounds conf prog dtype root l R input out) (hr : r < R) :
    Reaches (startNet A conf prog fresh).step (between input root l r)
      (between input root l (r + 1)) :=
  calc Reaches (startNet A conf prog fresh).step _ _ := h.reaches_ask hr
    Reaches (startNet A conf prog fresh).step _ _ :=
      reaches_others h.toStar fun _ hq => h.reaches_put hq hr
    Reaches (startNet A conf prog fresh).step _ _ := h.reaches_collect hr
    Reaches (startNet A conf prog fresh).step _ _ := h.reaches_replicate hr
    Reaches (startNet A conf prog fresh).step _ _ :=
      reaches_others h.toStar fun _ hq => h.reaches_get hq hr

/-- All rounds. -/
theorem reaches_between (h : Rounds conf prog dtype root l R input out) (hr : r ≤ R) :
    Reaches (startNet A conf prog fresh).step (between input root l 0)
      (between input root l r) := by
  induction r with
  | zero => exact .refl _
  | succ r ih => exact (ih (Nat.le_of_succ_le hr)).trans (h.reaches_round hr)

/-- What the net starts from. -/
theorem netStart_eq (h : Rounds conf prog dtype root l R input out) :
    Conf.netStart (Dsys.start conf fresh fun _ => Exec.start) = between input root l 0 := by
  refine congrArg₂ KahnState.mk (funext fun a => ?_) (funext fun w => ?_)
  · cases a with
    | comp q =>
      change (⟨.start, none, []⟩ : Comp ℤ Exec) = (between input root l 0).loc (.comp q)
      by_cases hroot : q = root
      · rw [hroot, between_root]
        rfl
      · by_cases hq : q ∈ l
        · rw [between_leaf h.root_not_mem hq]
          rfl
        · rw [between_outside hq hroot]
    | service p p' => exact (between_service p p').symm
  · cases w with
    | ring p c i =>
      refine Eq.trans ?_ (between_chan (.ring p c i)).symm
      change Option.elim _ _ _ = _
      cases hring : (Dsys.start conf fresh fun _ => Exec.start).ring? p c i with
      | none => rfl
      | some ring =>
        obtain ⟨ch, raw, -, rfl⟩ := Dsys.ring?_start _ _ hring
        exact Mc121.contents_mc121Create raw _
    | request q p => exact (between_chan (.request q p)).symm
    | data p q => exact (between_chan (.data p q)).symm

/-- After the last round nobody calls anything. -/
theorem call_between (h : Rounds conf prog dtype root l R input out) (q : ℤ) :
    (prog q).call ((between input root l R).loc (.comp q)).state = none := by
  by_cases hroot : q = root
  · rw [hroot, between_root, h.root_prog]
    simp [iskelAll2allExec, rootAt]
  · by_cases hq : q ∈ l
    · rw [between_leaf h.root_not_mem hq, h.progs q hq]
      simp [iskelAll2allExec, leafAt]
    · exact h.idle q hq hroot _

theorem micro_between (h : Rounds conf prog dtype root l R input out) (q : ℤ) (r : ℕ) :
    ((between input root l r).loc (.comp q)).micro = none := by
  by_cases hroot : q = root
  · rw [hroot, between_root]
    rfl
  · by_cases hq : q ∈ l
    · rw [between_leaf h.root_not_mem hq]
      rfl
    · rw [between_outside hq hroot]

/-- And nobody moves. -/
theorem halted (h : Rounds conf prog dtype root l R input out) (a : Agent ℤ) :
    (startNet A conf prog fresh).step (between input root l R) a = none := by
  cases a with
  | comp q =>
    refine Kahn.step_halt ?_
    change conf.compOp A prog q _ = _
    simp only [Conf.compOp, h.micro_between q R, h.call_between q]
  | service p p' =>
    have hop : (startNet A conf prog fresh).prog (.service p p')
        ((between input root l R).loc (.service p p')) =
        .take (.request p' p) 1 fun rs => (rs.head?.map Serving.got).getD .idle := by
      rw [between_service]
      rfl
    refine Kahn.step_take_wait hop ?_
    rw [between_chan]
    exact Nat.one_pos

/-! ### What a process has -/

/-- A move of a computation thread returns from a call, or leaves the program where it is. -/
theorem state_effect {cap : Wire ℤ → Option ℕ} {chan : (w : Wire ℤ) → List (Wire.Msg ℤ w)}
    {comp : Comp ℤ Exec} {x} (hx : Kahn.effect cap chan (conf.compOp A prog q comp) = some x) :
    x.1.state = comp.state ∨ ∃ out, x.1.state = (prog q).resume comp.state out := by
  simp only [Conf.compOp] at hx
  split at hx
  case h_1 =>
    split at hx
    · cases hx
    · obtain rfl := Option.some.inj hx
      exact .inl rfl
  case h_2 =>
    obtain rfl := Option.some.inj hx
    exact .inr ⟨_, rfl⟩
  case h_6 => cases hx
  all_goals
    obtain ⟨-, hx⟩ := Option.ite_none_right_eq_some.mp hx
    obtain rfl := Option.some.inj hx
    exact .inl rfl

/-- A return adds at most one round to what a process has. -/
theorem outs_resume (bytes : ℕ) (topo : All2all) (bcRank : ℤ) (input out : ℕ → List Byte)
    (st : Exec) (x : ℤ × List Byte) :
    st.outs <+: ((iskelAll2allExec bytes topo bcRank R input out).resume st x).outs := by
  obtain ⟨ret, loc⟩ := x
  simp only [iskelAll2allExec]
  split
  · split
    · exact List.prefix_append _ _
    · exact List.prefix_rfl
  · split
    · exact List.prefix_append _ _
    · exact List.prefix_rfl

/-- What one of the processes has only grows. -/
theorem outs_grow (h : Rounds conf prog dtype root l R input out) (hq : q = root ∨ q ∈ l)
    {s t : KahnState (Wire.Msg ℤ) (Agent.Local ℤ Exec)}
    (hst : Reaches (startNet A conf prog fresh).step s t) :
    (s.loc (.comp q)).state.outs <+: (t.loc (.comp q)).state.outs := by
  have hprog : ∃ topo bcRank input out,
      prog q = iskelAll2allExec dtype.bytes topo bcRank R input out := by
    rcases hq with rfl | hq
    · exact ⟨_, _, _, _, h.root_prog⟩
    · exact ⟨_, _, _, _, h.progs q hq⟩
  obtain ⟨topo, bcRank, input, out, hprog⟩ := hprog
  refine hst.invariant (P := fun t => (s.loc (.comp q)).state.outs <+:
    (t.loc (.comp q)).state.outs) (fun t a u ht hu => ht.trans ?_) List.prefix_rfl
  refine Kahn.grows _ (a := .comp q) (fun comp => comp.state.outs) (fun hx => ?_) hu
  obtain hsame | ⟨x, hresume⟩ := state_effect hx
  · rw [hsame]
  · rw [hresume, hprog]
    exact outs_resume ..

/-- A prefix of the values at the first numbers. -/
theorem eq_map_range {α : Type} {f : ℕ → α} {xs : List α} (h : xs <+: (List.range R).map f) :
    xs = (List.range xs.length).map f := by
  have hle := h.length_le
  rw [List.length_map, List.length_range] at hle
  calc xs = ((List.range R).map f).take xs.length := List.prefix_iff_eq_take.mp h
    _ = (List.range xs.length).map f := by rw [← List.map_take, List.take_range, min_eq_left hle]

/-- **In every run each process has the whole of every round it has been through**, and while one
has not been through all of them, somebody moves. -/
theorem outs_eq (h : Rounds conf prog dtype root l R input out) {s : Dsys ℤ Exec}
    (hs : Reaches (Dsys.step A conf prog) (Dsys.start conf fresh fun _ => .start) s) :
    (∀ q, q = root ∨ q ∈ l → (s.comp q).state.outs =
      (List.range (s.comp q).state.outs.length).map (whole input root l)) ∧
    ((∃ q, (q = root ∨ q ∈ l) ∧ (s.comp q).state.outs.length < R) →
      ∃ a s', s.step A conf prog a = some s') := by
  have hfinal : Reaches (startNet A conf prog fresh).step
      (Conf.netStart (Dsys.start conf fresh fun _ => Exec.start)) (between input root l R) := by
    rw [h.netStart_eq]
    exact h.reaches_between le_rfl
  obtain ⟨k, hcomp, hrest, hmove⟩ :=
    Conf.reaches_halted h.ordered h.oneToOne h.apart hfinal h.halted hs
  have hlast {q : ℤ} (hq : q = root ∨ q ∈ l) :
      ((between input root l R).loc (.comp q)).state.outs =
        (List.range R).map (whole input root l) := by
    rcases hq with rfl | hq
    · rw [between_root]
      rfl
    · rw [between_leaf h.root_not_mem hq]
      rfl
  refine ⟨fun q hq => ?_, fun ⟨q, hq, hlt⟩ => hmove fun heq => ?_⟩
  · have hgrow := h.outs_grow hq hrest
    rw [hlast hq, hcomp] at hgrow
    exact eq_map_range hgrow
  · have houts := hlast hq
    rw [← heq, hcomp] at houts
    rw [houts, List.length_map, List.length_range] at hlt
    exact lt_irrefl _ hlt

end Rounds

/-- The processes that created an all-to-all go through its rounds. -/
theorem rounds_exec {call : SkelCall} (hok : call.Ok) (hskel : call.skeleton = .all2all)
    {rank : ℤ} {ranks : List ℤ} (hplist : call.plist = rank :: ranks)
    (hnum : call.plist.length < 2 ^ 31) (hfits : call.plist.length * dtype.bytes < 2 ^ 64)
    (hinput : ∀ p r, (input p r).length = dtype.bytes)
    (hout : ∀ p r, (out p r).length = call.plist.length * dtype.bytes) :
    Rounds (call.conf dtype) (call.exec dtype R input out) dtype (smallest rank ranks)
      (call.plist.filter (· ∉ [smallest rank ranks])) R input out := by
  have hmem : smallest rank ranks ∈ call.plist := hplist ▸ smallest_mem rank ranks
  have hlen := length_filter_not_mem hok.nodup hmem
  have htopo := iskelAll2all_eq hok hplist
  have hexec {p : ℤ} (hp : p ∈ call.plist) : call.exec dtype R input out p =
      iskelAll2allExec dtype.bytes ⟨smallest rank ranks, call.plist.length⟩ p R (input p)
        (out p) := by
    rw [SkelCall.exec, htopo p, if_pos hp]
  refine ⟨star_conf hok hskel hplist, ?_, fun q hq => ?_, fun q hq hne st => ?_, hinput, ?_, ?_, ?_⟩
  · rw [hlen]
    exact hexec hmem
  · rw [hlen]
    exact hexec (List.mem_filter.mp hq).1
  · have hout : q ∉ call.plist := fun h => hq (List.mem_filter.mpr ⟨h, by simpa using hne⟩)
    rw [SkelCall.exec, htopo q, if_neg hout]
  · rwa [hlen]
  · rwa [hlen]
  · rwa [hlen]

/-- **An all-to-all agrees and goes on.**  Whatever the ranks, the values and the schedule: what a
process has after a round is the root's value of that round and then those of the others, in the
order of the list; and as long as a process has rounds left, somebody moves. -/
theorem all2all_agrees (A : Arith) (call : SkelCall) (hok : call.Ok)
    (hskel : call.skeleton = .all2all) (dtype : Dtype) (hnum : call.plist.length < 2 ^ 31)
    (hfits : call.plist.length * dtype.bytes < 2 ^ 64) (R : ℕ) (input out : ℤ → ℕ → List Byte)
    (hinput : ∀ p r, (input p r).length = dtype.bytes)
    (hout : ∀ p r, (out p r).length = call.plist.length * dtype.bytes) (fresh : Fresh ℤ)
    (s : Dsys ℤ Exec) (hs : Reaches
      (Dsys.step A (call.conf dtype) (call.exec dtype R input out))
      (Dsys.start (call.conf dtype) fresh fun _ => .start) s) :
    ∃ root, call.Centre root ∧
      (∀ q ∈ call.plist, (s.comp q).state.outs =
        (List.range (s.comp q).state.outs.length).map fun r =>
          input root r ++ (call.plist.filter (· ∉ [root])).flatMap (input · r)) ∧
      ((∃ q ∈ call.plist, (s.comp q).state.outs.length < R) →
        ∃ a s', s.step A (call.conf dtype) (call.exec dtype R input out) a = some s') := by
  obtain ⟨rank, ranks, hplist⟩ := hok.exists_cons
  have hrounds := rounds_exec (R := R) hok hskel hplist hnum hfits hinput hout
  obtain ⟨hagree, hmove⟩ := hrounds.outs_eq hs
  have hmem {q : ℤ} (hq : q ∈ call.plist) : q = smallest rank ranks ∨
      q ∈ call.plist.filter (· ∉ [smallest rank ranks]) := by
    by_cases hroot : q = smallest rank ranks
    · exact .inl hroot
    · exact .inr (List.mem_filter.mpr ⟨hq, by simpa using hroot⟩)
  exact ⟨_, SkelCall.centre_smallest hskel hplist, fun q hq => hagree q (hmem hq),
    fun ⟨q, hq, hlt⟩ => hmove ⟨q, hmem hq, hlt⟩⟩

/-- Three processes and two rounds: the root is through the first, and the others have put. -/
theorem all2all_agrees_three : ∃ s : Dsys ℤ Exec, (s.comp 0).state.outs = [[10, 12, 11]] ∧
    (s.comp 1).state.outs = [] ∧ ∃ a s', s.step noArith
      ((⟨.all2all, [2, 0, 1], fun _ => 0, fun _ => 5⟩ : SkelCall).conf .char)
      ((⟨.all2all, [2, 0, 1], fun _ => 0, fun _ => 5⟩ : SkelCall).exec .char 2
        (fun p r => [(10 + p.toNat + 10 * r).toUInt8]) fun _ _ => [0, 0, 0]) a = some s' := by
  have hrun : ∃ s, run (Dsys.step noArith
      ((⟨.all2all, [2, 0, 1], fun _ => 0, fun _ => 5⟩ : SkelCall).conf .char)
      ((⟨.all2all, [2, 0, 1], fun _ => 0, fun _ => 5⟩ : SkelCall).exec .char 2
        (fun p r => [(10 + p.toNat + 10 * r).toUInt8]) fun _ _ => [0, 0, 0]))
      (Dsys.start ((⟨.all2all, [2, 0, 1], fun _ => 0, fun _ => 5⟩ : SkelCall).conf .char)
        ⟨fun _ _ _ _ => 0, fun _ _ _ => 0⟩ fun _ => .start)
      [.comp 2, .comp 2, .comp 2, .comp 1, .comp 1, .comp 1, .comp 0, .comp 0, .comp 0,
        .deliverRequest 0 2, .recv 2 0, .serve 2 0, .deliverData 2 0, .deliverRequest 0 1,
        .recv 1 0, .serve 1 0, .deliverData 1 0, .comp 0, .comp 0, .comp 0, .comp 0, .comp 0,
        .comp 0, .comp 0] = some s ∧ (s.comp 0).state.outs = [[10, 12, 11]] ∧
      (s.comp 1).state.outs = [] := ⟨_, rfl, rfl, rfl⟩
  obtain ⟨s, hrun, hroot, hother⟩ := hrun
  obtain ⟨-, -, -, hmove⟩ := all2all_agrees noArith
    ⟨.all2all, [2, 0, 1], fun _ => 0, fun _ => 5⟩ ⟨by decide, by decide, fun _ _ => rfl⟩ rfl .char
    (by decide) (by decide) 2 (fun p r => [(10 + p.toNat + 10 * r).toUInt8]) (fun _ _ => [0, 0, 0])
    (fun _ _ => rfl) (fun _ _ => rfl) _ s ⟨_, hrun⟩
  refine ⟨s, hroot, hother, hmove ⟨1, by decide, ?_⟩⟩
  rw [hother]
  decide

end Libdsys
