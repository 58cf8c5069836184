import Libdsys.Dsys.Schedule

/-!
# Dsys/Streams — what the ring buffers of a channel were given

A put on `BC_ROLE_REPLICATE` or `BC_ROLE_SPREAD` is a loop of puts, one for each consumer, and any
of them may wait: the channel is often left with some consumers ahead of others by one put.

* `Traced` — the system with what was put and what was sent written down.
* `Traced.Streams` — a ring buffer holds what it was given and has not sent.
* `streams_agree` — so the consumers of a channel were given the same puts, but for the one in
  progress.
-/

open Machinery

namespace Libdsys

variable {P σ : Type}

/-! ## The system with its history -/

/-- The put that a call is: its channel, its buffer and its units. -/
def Call.put? : Call → Option (ℕ × List Byte × ℕ)
  | .put (.sink c) (some loc) du => if du < 1 then none else some (c, loc, du.toNat)
  | .commit (.sink c) => some (c, [], 1)
  | _ => none

/-- The data of a reply, and which channel of which process it is from. -/
structure Grant (P : Type) where
  sender : P
  chan : ℕ
  data : List Byte

/-- The system, and what happened to it. -/
structure Traced (P σ : Type) where
  sys : Dsys P σ
  /-- The puts on each channel, with the one in progress. -/
  puts : P → ℕ → List (List Byte × ℕ)
  /-- The channel of the put in progress, and how many of its ring buffers have it. -/
  current : P → Option (ℕ × ℕ)
  /-- The data that was sent to each process. -/
  granted : P → List (Grant P)
  /-- The gets that have returned, with what they returned. -/
  gets : P → List (Call × ℤ × List Byte)

namespace Traced

def start (conf : Conf P) (fresh : Fresh P) (init : P → σ) : Traced P σ where
  sys := Dsys.start conf fresh init
  puts _ _ := []
  current _ := none
  granted _ := []
  gets _ := []

variable [DecidableEq P]

/-- What is written down of a step of the computation thread of `q`. -/
def noteComp (prog : P → Program σ) (t : Traced P σ) (q : P) (sys : Dsys P σ) : Traced P σ :=
  match (t.sys.comp q).micro with
  | none =>
    match ((prog q).call (t.sys.comp q).state).bind Call.put? with
    | none => { t with sys }
    | some (c, x) =>
      { t with
        sys
        puts := Function.update t.puts q (Function.update (t.puts q) c (t.puts q c ++ [x]))
        current := Function.update t.current q (some (c, 0)) }
  | some (.put _ _ _ _) =>
    { t with
      sys
      current := Function.update t.current q ((t.current q).map fun (c, j) => (c, j + 1)) }
  | some (.done out) =>
    { t with
      sys
      current := Function.update t.current q none
      gets := Function.update t.gets q
        (match (prog q).call (t.sys.comp q).state with
        | some (.get bc loc du) => t.gets q ++ [(.get bc loc du, out)]
        | _ => t.gets q) }
  | some _ => { t with sys }

/-- What is written down of an answer of process `p` to `q`. -/
def noteServe (conf : Conf P) (t : Traced P σ) (p q : P) (sys : Dsys P σ) : Traced P σ :=
  match t.sys.serving conf p q with
  | some (r, link, _, .sent _ fd) =>
    { t with
      sys
      granted := Function.update t.granted q
        (t.granted q ++ [⟨p, link.channel, fd.drop (preamble r.condRecv).length⟩]) }
  | _ => { t with sys }

/-- One step, written down. -/
def step (A : Arith) (conf : Conf P) (prog : P → Program σ) (t : Traced P σ) (a : DsysAct P) :
    Option (Traced P σ) :=
  (t.sys.step A conf prog a).map fun sys =>
    match a with
    | .comp q => t.noteComp prog q sys
    | .serve p q => t.noteServe conf p q sys
    | _ => { t with sys }

/-- The bytes that were sent to process `q` from channel `c` of process `p`. -/
def delivered (t : Traced P σ) (p : P) (c : ℕ) (q : P) : List Byte :=
  ((t.granted q).filter fun g => g.sender = p ∧ g.chan = c).flatMap Grant.data

omit [DecidableEq P] in
/-- The puts that the `k`-th ring buffer of a channel has: the one in progress counts if the ring
buffer comes before the one it stands at. -/
def received (t : Traced P σ) (p : P) (c k : ℕ) : List (List Byte × ℕ) :=
  match t.current p with
  | some (c', j) => if c' = c ∧ j ≤ k then (t.puts p c).dropLast else t.puts p c
  | none => t.puts p c

end Traced

/-! ## The loop of a put -/

namespace SinkChan

/-- How many ring buffers the channel has. -/
def width (ch : SinkChan P) : ℕ :=
  match ch.role with
  | .pipe => 1
  | _ => ch.plist.length

/-- What a put gives to the `k`-th ring buffer: the units of its buffer or, where they are spread,
the `k`-th of the segments. -/
def share (ch : SinkChan P) (k : ℕ) (x : List Byte × ℕ) : List Byte :=
  match ch.role with
  | .spread => (x.1.drop (k * sizeMul ch.dtype.bytes x.2)).take (sizeMul ch.dtype.bytes x.2)
  | _ => x.1.take (sizeMul ch.dtype.bytes x.2)

variable [DecidableEq P]

/-- What is left of a put that has reached the `j`-th ring buffer. -/
def rest (ch : SinkChan P) (c : ℕ) (x : List Byte × ℕ) (j : ℕ) : Micro P ℤ :=
  match ch.role with
  | .pipe => if j = 0 then pPipe ch c x.1 x.2 else .done 0
  | .replicate =>
    replicateEach ch.plist c x.1 (sizeMul ch.dtype.bytes x.2) (ch.plist.drop j)
  | _ => spreadEach c x.1 (sizeMul ch.dtype.bytes x.2) (ch.plist.drop j) j
    (j * sizeMul ch.dtype.bytes x.2)

/-- **The channel has ring buffers.** -/
def Rings (ch : SinkChan P) : Prop :=
  ch.role = .pipe ∨ (ch.role = .replicate ∨ ch.role = .spread) ∧ ch.plist.Nodup

variable {ch : SinkChan P} {c : ℕ} {x : List Byte × ℕ}

theorem Rings.rest_zero (h : ch.Rings) : ch.rest c x 0 = ch.role.p ch c x.1 x.2 := by
  obtain ⟨role, plist, dtype, dunits⟩ := ch
  obtain hrole | ⟨hrole | hrole, -⟩ := h
  all_goals
    obtain rfl := hrole
    simp [rest, Role.p, pReplicate, pSpread]

omit [DecidableEq P] in
/-- A put of what it reads from its buffer. -/
theorem bind_readAt (loc : List Byte) (off s i : ℕ) (next : Micro P ℤ) :
    ((Micro.ofOption (readAt loc off s) : Micro P (List Byte)).bind fun bs => .put c i bs next)
        = .fault ∨
      ((Micro.ofOption (readAt loc off s) : Micro P (List Byte)).bind fun bs => .put c i bs next)
        = .put c i ((loc.drop off).take s) next := by
  rw [readAt]
  split
  · exact .inr rfl
  · exact .inl rfl

/-- **A put that is not through is at its next ring buffer**, unless its buffer is too short. -/
theorem Rings.rest_lt (h : ch.Rings) {j : ℕ} (hj : j < ch.width) :
    ch.rest c x j = .fault ∨ ch.rest c x j = .put c j (ch.share j x) (ch.rest c x (j + 1)) := by
  obtain ⟨role, plist, dtype, dunits⟩ := ch
  obtain ⟨loc, du⟩ := x
  obtain hrole | ⟨hrole | hrole, hnodup⟩ := h
  · obtain rfl := hrole
    obtain rfl : j = 0 := Nat.lt_one_iff.mp hj
    exact bind_readAt loc 0 _ 0 _
  · obtain rfl := hrole
    have hlt : j < plist.length := hj
    have hidx : plist.idxOf plist[j] = j := hnodup.idxOf_getElem j hlt
    simp only [rest, List.drop_eq_getElem_cons hlt, replicateEach, hidx]
    exact bind_readAt loc 0 _ j _
  · obtain rfl := hrole
    have hlt : j < plist.length := hj
    simp only [rest, List.drop_eq_getElem_cons hlt, spreadEach, share, Nat.succ_mul]
    exact bind_readAt loc _ _ j _

theorem Rings.rest_width (h : ch.Rings) : ch.rest c x ch.width = .done 0 := by
  obtain ⟨role, plist, dtype, dunits⟩ := ch
  obtain hrole | ⟨hrole | hrole, -⟩ := h
  all_goals
    obtain rfl := hrole
    simp [rest, width, replicateEach, spreadEach]

end SinkChan

/-! ## Where a call puts -/

/-- **A call that puts nothing on channel `c`.** -/
def Micro.Avoids {α : Type} (c : ℕ) : Micro P α → Prop
  | .done _ => True
  | .fault => True
  | .put c' _ _ next => c' ≠ c ∧ next.Avoids c
  | .commit _ _ next => next.Avoids c
  | .retry _ _ next => next.Avoids c
  | .fill _ _ _ next => next.Avoids c
  | .request _ _ next => next.Avoids c
  | .read _ _ next => ∀ bs, (next bs).Avoids c
  | .poll _ _ _ _ next => ∀ bs, (next bs).Avoids c

/-- **A call that puts on ring buffers that meet a condition.** -/
def Micro.Puts {α : Type} (ok : ℕ → ℕ → Prop) : Micro P α → Prop
  | .done _ => True
  | .fault => True
  | .put c i _ next => ok c i ∧ next.Puts ok
  | .commit _ _ next => next.Puts ok
  | .retry _ _ next => next.Puts ok
  | .fill _ _ _ next => next.Puts ok
  | .request _ _ next => next.Puts ok
  | .read _ _ next => ∀ bs, (next bs).Puts ok
  | .poll _ _ _ _ next => ∀ bs, (next bs).Puts ok

section Puts

variable {α β : Type} {ok : ℕ → ℕ → Prop} {c : ℕ} {links : List (P × ℕ)}

theorem avoids_iff {m : Micro P α} : m.Avoids c ↔ m.Puts fun c' _ => c' ≠ c := by
  induction m with
  | done | fault => exact Iff.rfl
  | put c' i bs next ih => exact and_congr_right' ih
  | commit _ _ _ ih | retry _ _ _ ih | fill _ _ _ _ ih | request _ _ _ ih => exact ih
  | read p n next ih => exact forall_congr' ih
  | poll links rest sz du next ih => exact forall_congr' ih

theorem puts_bind {m : Micro P α} {f : α → Micro P β} (hm : m.Puts ok)
    (hf : ∀ a, (f a).Puts ok) : (m.bind f).Puts ok := by
  induction m with
  | done a => exact hf a
  | fault => trivial
  | put c i bs next ih => exact ⟨hm.1, ih hm.2⟩
  | commit _ _ _ ih | retry _ _ _ ih | fill _ _ _ _ ih | request _ _ _ ih => exact ih hm
  | read p n next ih => exact fun bs => ih bs (hm bs)
  | poll links rest sz du next ih => exact fun bs => ih bs (hm bs)

theorem Micro.Reads.puts {m : Micro P α} (hm : m.Reads links) : m.Puts ok := by
  induction m with
  | done | fault => trivial
  | put | commit | retry | fill | poll => exact hm.elim
  | request p r next ih => exact ih hm.2.2
  | read p n next ih => exact fun bs => ih bs (hm bs)

theorem puts_ofOption (o : Option α) : (Micro.ofOption o : Micro P α).Puts ok := by
  cases o <;> trivial

/-- A get puts nothing. -/
theorem puts_r {A : Arith} {role : Role} {r} (hr : role.r (P := P) A = some r) (src : Src P)
    (loc : List Byte) (du : ℕ) : (r src loc du).Puts ok := by
  by_cases hany : role = .collectAny
  · subst hany
    obtain rfl := Option.some.inj hr
    exact fun bs => puts_bind (puts_ofOption _) fun _ => trivial
  · exact (reads_r hr hany).puts

variable [DecidableEq P]

/-- A put is on the ring buffers of its channel. -/
theorem puts_p {role : Role} {plist : List P} {dtype : Dtype} {dunits du : ℕ} {loc : List Byte}
    (hok : ∀ i < SinkChan.width ⟨role, plist, dtype, dunits⟩, ok c i) :
    (role.p ⟨role, plist, dtype, dunits⟩ c loc du).Puts ok := by
  have hreplicate (hok : ∀ i < plist.length, ok c i) (rest : List P) (hrest : rest ⊆ plist)
      (s : ℕ) : (replicateEach plist c loc s rest).Puts ok := by
    induction rest with
    | nil => trivial
    | cons tag rest ih =>
      obtain ⟨htag, hrest⟩ := List.cons_subset.mp hrest
      exact puts_bind (puts_ofOption _) fun _ =>
        ⟨hok _ (List.idxOf_lt_length_of_mem htag), ih hrest⟩
  have hspread (hok : ∀ i < plist.length, ok c i) (rest : List P) (s i off : ℕ)
      (hi : i + rest.length = plist.length) : (spreadEach c loc s rest i off).Puts ok := by
    induction rest generalizing i off with
    | nil => trivial
    | cons _ rest ih =>
      rw [List.length_cons] at hi
      exact puts_bind (puts_ofOption _) fun _ => ⟨hok i (by omega), ih _ _ (by omega)⟩
  cases role
  case pipe => exact puts_bind (puts_ofOption _) fun _ => ⟨hok 0 Nat.one_pos, trivial⟩
  case replicate => exact hreplicate hok _ (List.Subset.refl _) _
  case spread => exact hspread hok _ _ _ _ (Nat.zero_add _)
  all_goals trivial

/-- **A call puts on the ring buffers of the channel it is a put on.** -/
theorem puts_bcCall {A : Arith} {chans : Chans P} {call : Call}
    (hok : ∀ c x ch, call.put? = some (c, x) → chans.sinks[c]? = some ch →
      ∀ i < ch.width, ok c i) : (bcCall A chans call).Puts ok := by
  cases call with
  | put bc loc du =>
    cases bc with
    | src j => trivial
    | sink c =>
      simp only [bcCall, bcPut]
      split
      · trivial
      · trivial
      · next ch loc hch =>
        split
        · trivial
        · next hdu =>
          exact puts_bind (puts_p (hok c (loc, du.toNat) ch (if_neg hdu) hch)) fun _ => trivial
  | commit bc =>
    cases bc with
    | src j => trivial
    | sink c =>
      simp only [bcCall, bcCommit]
      split
      · trivial
      · next ch hch => exact puts_bind (puts_p (hok c ([], 1) ch rfl hch)) fun _ => trivial
  | get bc loc du =>
    cases bc with
    | sink c => trivial
    | src j =>
      simp only [bcCall, bcGet]
      split
      · trivial
      · trivial
      · split
        · trivial
        · split
          · trivial
          · next hr => exact puts_r hr _ _ _
  | fill c off bs => trivial

/-- Any other call leaves a channel alone. -/
theorem avoids_bcCall {A : Arith} {chans : Chans P} {call : Call}
    (hput : ∀ x, call.put? ≠ some (c, x)) : (bcCall A chans call).Avoids c :=
  avoids_iff.mpr (puts_bcCall fun _ x _ hcall _ _ _ hc => hput x (hc ▸ hcall))

/-- **A put goes through the ring buffers from the first on.** -/
theorem bcCall_of_put? {A : Arith} {chans : Chans P} {call : Call} {ch : SinkChan P}
    {x : List Byte × ℕ} (hput : call.put? = some (c, x)) (hch : chans.sinks[c]? = some ch)
    (hrings : ch.Rings) :
    ∃ out, bcCall A chans call = (ch.rest c x 0).bind fun ret => .done (ret, out) := by
  rw [hrings.rest_zero]
  cases call with
  | put bc loc du =>
    cases bc with
    | src j => cases loc <;> cases hput
    | sink c' =>
      cases loc with
      | none => cases hput
      | some loc =>
        obtain ⟨hdu, ⟨⟩⟩ := Option.ite_none_left_eq_some.mp hput
        simp only [bcCall, bcPut, hch, if_neg hdu]
        exact ⟨_, rfl⟩
  | commit bc =>
    cases bc with
    | src j => cases hput
    | sink c' =>
      obtain ⟨⟩ := hput
      simp only [bcCall, bcCommit, hch]
      exact ⟨_, rfl⟩
  | get bc loc du => cases hput
  | fill c' off bs => cases hput

end Puts

/-! ## The invariant -/

section Start

variable {conf : Conf P} {p : P} {c k : ℕ} {ch : SinkChan P}

/-- The ring buffers of a new queue are new. -/
theorem Queue.ring?_create {fresh : Fresh P} {ring : Mc121}
    (h : (Queue.create fresh p c ch).ring? k = some ring) :
    ∃ raw, ring = mc121Create raw (unitsSize ch.dunits ch.dtype.bytes) := by
  obtain ⟨role, plist, dtype, dunits⟩ := ch
  have hlist {qs : List (P × Mc121)} (hqs : (plist.mapIdx fun i q =>
      (q, mc121Create (fresh.mem p c i) (unitsSize dunits dtype.bytes))) = qs)
    (h : (qs[k]?).map Prod.snd = some ring) :
      ∃ raw, ring = mc121Create raw (unitsSize dunits dtype.bytes) := by
    obtain ⟨x, hx, rfl⟩ := Option.map_eq_some_iff.mp h
    rw [← hqs, List.getElem?_mapIdx] at hx
    obtain ⟨q, -, rfl⟩ := Option.map_eq_some_iff.mp hx
    exact ⟨_, rfl⟩
  cases role
  case replicate | spread => exact hlist rfl h
  case pipen | replicaten | farm | farmn => cases h
  all_goals
    cases k with
    | zero => exact ⟨_, (Option.some.inj h).symm⟩
    | succ k => cases h

/-- The ring buffers that there are when a system starts. -/
theorem Dsys.ring?_start (fresh : Fresh P) (init : P → σ) {ring : Mc121}
    (hring : (Dsys.start conf fresh init).ring? p c k = some ring) :
    ∃ ch raw, (conf.chans p).sinks[c]? = some ch ∧
      ring = mc121Create raw (unitsSize ch.dunits ch.dtype.bytes) := by
  simp only [Dsys.ring?, Dsys.start, List.getElem?_mapIdx, Option.bind_eq_bind,
    Option.bind_eq_some_iff, Option.map_eq_some_iff] at hring
  obtain ⟨queue, ⟨ch, hch, rfl⟩, hring⟩ := hring
  obtain ⟨raw, rfl⟩ := Queue.ring?_create hring
  exact ⟨ch, raw, hch, rfl⟩

/-- A channel with ring buffers has them when a system starts. -/
theorem Dsys.exists_ring?_start (fresh : Fresh P) (init : P → σ) (hrings : ch.Rings)
    (hch : (conf.chans p).sinks[c]? = some ch) (hk : k < ch.width) :
    ∃ raw, (Dsys.start conf fresh init).ring? p c k =
      some (mc121Create raw (unitsSize ch.dunits ch.dtype.bytes)) := by
  have hqueue : ((Dsys.start conf fresh init).queues p)[c]? = some (Queue.create fresh p c ch) := by
    simp [Dsys.start, hch]
  rw [Dsys.ring?, hqueue]
  obtain ⟨role, plist, dtype, dunits⟩ := ch
  obtain hrole | ⟨hrole | hrole, -⟩ := hrings
  · obtain rfl := hrole
    obtain rfl : k = 0 := Nat.lt_one_iff.mp hk
    exact ⟨_, rfl⟩
  all_goals
    obtain rfl := hrole
    have hlt : k < plist.length := hk
    exact ⟨fresh.mem p c k, by simp [Queue.create, Queue.ring?, hlt]⟩

end Start

theorem SinkChan.Rings.copies {ch : SinkChan P} (h : ch.Rings) {queue : Queue P}
    (hof : queue.Of ch) : queue.copies = true := by
  obtain ⟨role, plist, dtype, dunits⟩ := ch
  obtain hrole | ⟨hrole | hrole, -⟩ := h
  all_goals
    obtain rfl := hrole
    cases queue <;> first | rfl | cases hof.1 _ rfl

variable [DecidableEq P]

/-- The ring buffer that a process is served from. -/
theorem SinkChan.Rings.node_eq {ch : SinkChan P} (h : ch.Rings) {queue : Queue P}
    (hof : queue.Of ch) (q : P) : queue.node q = Conf.node ch q := by
  obtain ⟨role, plist, dtype, dunits⟩ := ch
  obtain hrole | ⟨hrole | hrole, -⟩ := h
  all_goals
    obtain rfl := hrole
    cases queue <;> first | rfl | exact congrArg (List.idxOf q) hof.2.1 | cases hof.1 _ rfl

namespace Traced

variable {A : Arith} {conf : Conf P} {prog : P → Program σ} {t t' : Traced P σ} {p q : P}
  {c k : ℕ} {ch : SinkChan P}

/-- Where the computation thread of `p` stands with channel `c`. -/
def Stands (t : Traced P σ) (ch : SinkChan P) (c : ℕ) (p : P) : Prop :=
  match (t.sys.comp p).micro with
  | none => t.current p = none
  | some m =>
    (∃ j x out, t.current p = some (c, j) ∧ j ≤ ch.width ∧ (t.puts p c).getLast? = some x ∧
      m = (ch.rest c x j).bind fun ret => .done (ret, out)) ∨
    (∀ j, t.current p ≠ some (c, j)) ∧ m.Avoids c

/-- **A ring buffer holds what it was given and has not sent.** -/
structure Streams (ch : SinkChan P) (p : P) (c k : ℕ) (q : P) (t : Traced P σ) : Prop where
  stands : t.Stands ch c p
  ring : ∃ ring, t.sys.ring? p c k = some ring ∧
    t.delivered p c q ++ ring.contents = (t.received p c k).flatMap (ch.share k)

/-- Where a thread stands that is in a call. -/
inductive InCall (t : Traced P σ) (ch : SinkChan P) (c : ℕ) (p : P) :
    Micro P (ℤ × List Byte) → Prop
  | through {out} (hcur : t.current p = some (c, ch.width)) : InCall t ch c p (.done (0, out))
  | fault : InCall t ch c p .fault
  | put {j x out} (hcur : t.current p = some (c, j)) (hj : j < ch.width)
    (hlast : (t.puts p c).getLast? = some x) :
    InCall t ch c p (.put c j (ch.share j x) ((ch.rest c x (j + 1)).bind fun ret =>
      .done (ret, out)))
  | elsewhere {m} (hcur : ∀ j, t.current p ≠ some (c, j)) (hm : m.Avoids c) : InCall t ch c p m

theorem Stands.inCall (h : t.Stands ch c p) (hrings : ch.Rings)
    {m : Micro P (ℤ × List Byte)} (hm : (t.sys.comp p).micro = some m) : t.InCall ch c p m := by
  simp only [Stands, hm] at h
  obtain ⟨j, x, out, hcur, hj, hlast, rfl⟩ | ⟨hcur, havoid⟩ := h
  · obtain hlt | rfl := hj.lt_or_eq
    · obtain hrest | hrest := hrings.rest_lt (c := c) (x := x) hlt
      · rw [hrest]
        exact .fault
      · rw [hrest]
        exact .put hcur hlt hlast
    · rw [hrings.rest_width]
      exact .through hcur
  · exact .elsewhere hcur havoid

theorem stands_iff {m : Micro P (ℤ × List Byte)} (hm : (t.sys.comp p).micro = some m) :
    t.Stands ch c p ↔
      (∃ j x out, t.current p = some (c, j) ∧ j ≤ ch.width ∧ (t.puts p c).getLast? = some x ∧
        m = (ch.rest c x j).bind fun ret => .done (ret, out)) ∨
      (∀ j, t.current p ≠ some (c, j)) ∧ m.Avoids c := by
  rw [Stands, hm]

theorem Streams.congr (h : t.Streams ch p c k q) (hcomp : t'.sys.comp p = t.sys.comp p)
    (hring : t'.sys.ring? p c k = t.sys.ring? p c k) (hcurrent : t'.current p = t.current p)
    (hputs : t'.puts p c = t.puts p c) (hdelivered : t'.delivered p c q = t.delivered p c q) :
    t'.Streams ch p c k q where
  stands := by
    have hstands := h.stands
    unfold Stands at hstands ⊢
    rwa [hcomp, hcurrent, hputs]
  ring := by
    obtain ⟨ring, hq, heq⟩ := h.ring
    refine ⟨ring, hring.trans hq, ?_⟩
    rw [hdelivered, heq, received, received, hcurrent, hputs]

omit [DecidableEq P] in
/-- A channel that no put is in progress on. -/
theorem received_of_ne (h : ∀ j, t.current p ≠ some (c, j)) (k : ℕ) :
    t.received p c k = t.puts p c := by
  rw [received]
  split
  · next c' j hcur =>
      rw [if_neg]
      rintro ⟨rfl, -⟩
      exact h j hcur
  · rfl

omit [DecidableEq P] in
theorem received_of_eq {j : ℕ} (h : t.current p = some (c, j)) (k : ℕ) :
    t.received p c k = if j ≤ k then (t.puts p c).dropLast else t.puts p c := by
  simp only [received, h, true_and]

/-! ### A step of the computation thread -/

omit [DecidableEq P] in
theorem received_of_none (h : t.current p = none) (k : ℕ) : t.received p c k = t.puts p c :=
  received_of_ne (fun j hj => by rw [h] at hj; cases hj) k

/-- A call begins. -/
theorem Streams.call (h : t.Streams ch p c k q) (hrings : ch.Rings)
    (hch : (conf.chans p).sinks[c]? = some ch) (hm : (t.sys.comp p).micro = none) {call : Call}
    (hcall : (prog p).call (t.sys.comp p).state = some call) :
    (t.noteComp prog p (t.sys.setMicro p (bcCall A (conf.chans p) call))).Streams ch p c k q := by
  have hnone : t.current p = none := by
    have hstands := h.stands
    rwa [Stands, hm] at hstands
  obtain ⟨ring, hq, heq⟩ := h.ring
  rw [received_of_none hnone] at heq
  have hmicro : ((t.sys.setMicro p (bcCall A (conf.chans p) call)).comp p).micro =
      some (bcCall A (conf.chans p) call) := by simp
  cases hput : call.put? with
  | none =>
    have hnote : t.noteComp prog p (t.sys.setMicro p (bcCall A (conf.chans p) call)) =
        { t with sys := t.sys.setMicro p (bcCall A (conf.chans p) call) } := by
      simp only [noteComp, hm, hcall, Option.bind_some, hput]
    rw [hnote]
    refine ⟨(stands_iff hmicro).mpr (.inr ⟨fun j => ?_, avoids_bcCall fun x => ?_⟩),
      ring, hq, ?_⟩
    · change t.current p ≠ _
      rw [hnone]
      nofun
    · rw [hput]
      nofun
    · change t.delivered p c q ++ _ = (t.received p c k).flatMap _
      rw [received_of_none hnone]
      exact heq
  | some cx =>
    obtain ⟨c', x⟩ := cx
    have hnote : t.noteComp prog p (t.sys.setMicro p (bcCall A (conf.chans p) call)) =
        { t with
          sys := t.sys.setMicro p (bcCall A (conf.chans p) call)
          puts := Function.update t.puts p (Function.update (t.puts p) c' (t.puts p c' ++ [x]))
          current := Function.update t.current p (some (c', 0)) } := by
      simp only [noteComp, hm, hcall, Option.bind_some, hput]
    rw [hnote]
    by_cases hc : c' = c
    · subst hc
      obtain ⟨out, hbc⟩ := bcCall_of_put? (A := A) hput hch hrings
      refine ⟨(stands_iff hmicro).mpr (.inl ⟨0, x, out, ?_, Nat.zero_le _, ?_, hbc⟩), ring, hq, ?_⟩
      · exact Function.update_self ..
      · simp
      · change t.delivered p c' q ++ _ = _
        rw [received_of_eq (Function.update_self ..), if_pos (Nat.zero_le k)]
        simpa using heq
    · have hcur : ∀ j, Function.update t.current p (some (c', 0)) p ≠ some (c, j) := by
        intro j
        rw [Function.update_self]
        rintro ⟨⟩
        exact hc rfl
      refine ⟨(stands_iff hmicro).mpr (.inr ⟨hcur, avoids_bcCall fun x' => ?_⟩), ring, hq, ?_⟩
      · rw [hput]
        rintro ⟨⟩
        exact hc rfl
      · change t.delivered p c q ++ _ = _
        rw [received_of_ne hcur]
        simpa [Function.update_of_ne (Ne.symm hc)] using heq

/-- A call returns. -/
theorem Streams.returns (h : t.Streams ch p c k q) (hrings : ch.Rings) (hk : k < ch.width)
    {out : ℤ × List Byte} (hm : (t.sys.comp p).micro = some (.done out)) :
    (t.noteComp prog p (t.sys.setComp p (Dsys.returns (prog p) (t.sys.comp p) out))).Streams
      ch p c k q := by
  obtain ⟨ring, hq, heq⟩ := h.ring
  have hputs : t.received p c k = t.puts p c := by
    cases h.stands.inCall hrings hm with
    | through hcur => rw [received_of_eq hcur, if_neg (not_le.mpr hk)]
    | elsewhere hcur => exact received_of_ne hcur k
  have hnote : t.noteComp prog p (t.sys.setComp p (Dsys.returns (prog p) (t.sys.comp p) out)) =
      { t with
        sys := t.sys.setComp p (Dsys.returns (prog p) (t.sys.comp p) out)
        current := Function.update t.current p none
        gets := (t.noteComp prog p (t.sys.setComp p
          (Dsys.returns (prog p) (t.sys.comp p) out))).gets } := by
    simp only [noteComp, hm]
  have hcur : Function.update t.current p none p = none := Function.update_self ..
  rw [hnote]
  refine ⟨?_, ring, hq, ?_⟩
  · simp [Stands, Dsys.returns]
  · change t.delivered p c q ++ _ = _
    rw [received_of_none hcur, heq, hputs]

theorem micro_setMicro (s : Dsys P σ) (q : P) (micro : Micro P (ℤ × List Byte)) :
    ((s.setMicro q micro).comp q).micro = some micro := by simp

/-- A step that is not a put, in a call that is none on the channel. -/
theorem Streams.elsewhere (h : t.Streams ch p c k q) {sys : Dsys P σ}
    {next : Micro P (ℤ × List Byte)} (hmicro : (sys.comp p).micro = some next)
    (hcur : ∀ j, t.current p ≠ some (c, j)) (hnext : next.Avoids c)
    (hring : sys.ring? p c k = t.sys.ring? p c k) :
    ({ t with sys } : Traced P σ).Streams ch p c k q := by
  obtain ⟨ring, hq, heq⟩ := h.ring
  exact ⟨(stands_iff hmicro).mpr (.inr ⟨hcur, hnext⟩), ring, hring.trans hq, heq⟩

/-- A ring buffer takes its share. -/
theorem Streams.put (h : t.Streams ch p c k q) (hwf : t.sys.Wf conf) (hrings : ch.Rings)
    (hch : (conf.chans p).sinks[c]? = some ch) {i : ℕ} {bs : List Byte}
    {next : Micro P (ℤ × List Byte)} {queue queue' : Queue P}
    (hm : (t.sys.comp p).micro = some (.put c i bs next))
    (hqueue : (t.sys.queues p)[c]? = some queue) (hput : queue.put i bs = some queue') :
    (t.noteComp prog p ((t.sys.setQueue p c queue').setMicro p next)).Streams ch p c k q := by
  obtain ⟨ring, hq, heq⟩ := h.ring
  obtain ⟨ch', hch', hof⟩ := hwf.queues p c queue hqueue
  obtain rfl := Option.some.inj (hch.symm.trans hch')
  obtain ⟨ring₀, hring₀, hfit, rfl⟩ := hof.put_eq_some hput
  have hmicro : (((t.sys.setQueue p c (queue.setRing i (ring₀.pushed bs))).setMicro p next).comp
      p).micro = some next := by simp
  have hnote : t.noteComp prog p
      ((t.sys.setQueue p c (queue.setRing i (ring₀.pushed bs))).setMicro p next) =
      { t with
        sys := (t.sys.setQueue p c (queue.setRing i (ring₀.pushed bs))).setMicro p next
        current := Function.update t.current p ((t.current p).map fun (c, j) => (c, j + 1)) } := by
    simp only [noteComp, hm]
  have hrings' (i' : ℕ) : ((t.sys.setQueue p c (queue.setRing i (ring₀.pushed bs))).setMicro p
      next).ring? p c i' = if i' = i then some (ring₀.pushed bs) else t.sys.ring? p c i' := by
    refine (Dsys.ring?_setQueue hqueue hring₀ _ p c i').trans ?_
    simp
  have hold : t.sys.ring? p c i = some ring₀ := by
    rw [Dsys.ring?, hqueue]
    exact hring₀
  rw [hnote]
  cases h.stands.inCall hrings hm with
  | @put _ x out hcur hi hlast =>
    have hcur' : Function.update t.current p ((t.current p).map fun (c, j) => (c, j + 1)) p =
        some (c, i + 1) := by
      rw [Function.update_self, hcur]
      rfl
    have hsnoc : (t.puts p c).dropLast ++ [x] = t.puts p c :=
      List.dropLast_append_getLast? x hlast
    refine ⟨(stands_iff hmicro).mpr (.inl ⟨i + 1, x, out, hcur', hi, hlast, rfl⟩), ?_⟩
    rw [received_of_eq hcur] at heq
    by_cases hk : k = i
    · subst hk
      obtain rfl := Option.some.inj (hold.symm.trans hq)
      refine ⟨_, (hrings' k).trans (if_pos rfl), ?_⟩
      change t.delivered p c q ++ _ = _
      rw [if_pos le_rfl] at heq
      rw [received_of_eq hcur', if_neg (Nat.not_succ_le_self k),
        (hof.ring_wf hring₀).contents_pushed hfit, ← List.append_assoc, heq]
      change _ = (t.puts p c).flatMap _
      rw [← hsnoc, List.flatMap_append]
      simp
    · refine ⟨ring, (hrings' k).trans ((if_neg hk).trans hq), ?_⟩
      change t.delivered p c q ++ _ = _
      rw [received_of_eq hcur', heq]
      have hle : i ≤ k ↔ i + 1 ≤ k := by omega
      simp only [hle]
  | elsewhere hcur hm => exact absurd rfl hm.1

/-- Only a put passes through the ring buffers. -/
theorem InCall.avoids {m : Micro P (ℤ × List Byte)} (h : t.InCall ch c p m)
    (hput : ∀ i bs next, m ≠ .put c i bs next) (hdone : ∀ out, m ≠ .done out)
    (hfault : m ≠ .fault) : (∀ j, t.current p ≠ some (c, j)) ∧ m.Avoids c := by
  cases h with
  | through hcur => exact absurd rfl (hdone _)
  | fault => exact absurd rfl hfault
  | put => exact absurd rfl (hput _ _ _)
  | elsewhere hcur hm => exact ⟨hcur, hm⟩

/-- A step on a queue of another channel. -/
theorem Streams.other (h : t.Streams ch p c k q) (hrings : ch.Rings) {c' : ℕ} (hc : c' ≠ c)
    {micro next : Micro P (ℤ × List Byte)} {queue queue' : Queue P}
    (hm : (t.sys.comp p).micro = some micro) (hon : Dsys.OnQueue queue micro c' queue' next) :
    (t.noteComp prog p ((t.sys.setQueue p c' queue').setMicro p next)).Streams ch p c k q := by
  have hring : ((t.sys.setQueue p c' queue').setMicro p next).ring? p c k = t.sys.ring? p c k :=
    Dsys.ring?_setQueue_of_ne t.sys (fun h => hc h.2.symm) queue' k
  have hmicro : (((t.sys.setQueue p c' queue').setMicro p next).comp p).micro = some next := by
    simp
  obtain ⟨hcur, havoid⟩ := (h.stands.inCall hrings hm).avoids
    (by rintro i bs next' rfl; cases hon; exact hc rfl) (by rintro out rfl; cases hon)
    (by rintro rfl; cases hon)
  cases hon with
  | @put _ i bs _ _ hput =>
    obtain ⟨ring, hq, heq⟩ := h.ring
    have hcur' : ∀ j, Function.update t.current p ((t.current p).map fun (c, j) => (c, j + 1)) p ≠
        some (c, j) := by
      intro j hj
      rw [Function.update_self, Option.map_eq_some_iff] at hj
      obtain ⟨⟨c'', j'⟩, hcur', ⟨⟩⟩ := hj
      exact hcur j' hcur'
    simp only [noteComp, hm]
    refine ⟨(stands_iff hmicro).mpr (.inr ⟨hcur', havoid.2⟩), ring, hring.trans hq, ?_⟩
    change t.delivered p c q ++ _ = _
    rw [received_of_ne hcur', heq, received_of_ne hcur]
  | commit | commitWait | retry | retryWait | fill =>
    simp only [noteComp, hm]
    exact h.elsewhere hmicro hcur havoid hring

/-- A step of the computation thread of the channel's process. -/
theorem Streams.moves_comp (h : t.Streams ch p c k q) (hwf : t.sys.Wf conf) (hrings : ch.Rings)
    (hch : (conf.chans p).sinks[c]? = some ch) (hk : k < ch.width) {sys : Dsys P σ}
    (hmoves : Dsys.Moves A conf prog t.sys (.comp p) sys) :
    (t.noteComp prog p sys).Streams ch p c k q := by
  cases hmoves with
  | call hm hcall => exact h.call hrings hch hm hcall
  | returns hm => exact h.returns hrings hk hm
  | @queue _ micro c' queue queue' next hm hq hon =>
    by_cases hc : c' = c
    · subst hc
      obtain ⟨ch', hch', hof⟩ := hwf.queues p c' queue hq
      obtain rfl := Option.some.inj (hch.symm.trans hch')
      obtain ⟨i, bs, rfl, hput⟩ := OnQueue.exists_put hon (hrings.copies hof)
      exact h.put hwf hrings hch hm hq hput
    · exact h.other hrings hc hm hon
  | request hm =>
    obtain ⟨hcur, havoid⟩ := (h.stands.inCall hrings hm).avoids nofun nofun nofun
    simp only [noteComp, hm]
    exact h.elsewhere (micro_setMicro ..) hcur havoid rfl
  | @read _ p' n next bs socket hm =>
    obtain ⟨hcur, havoid⟩ := (h.stands.inCall hrings hm).avoids nofun nofun nofun
    simp only [noteComp, hm]
    exact h.elsewhere (micro_setMicro ..) hcur (havoid bs) rfl
  | @poll _ links p' tag rest sz du next hm =>
    obtain ⟨hcur, havoid⟩ := (h.stands.inCall hrings hm).avoids nofun nofun nofun
    have hnext : (Micro.request p' ⟨true, tag, du⟩ (.read p' 4 fun flag =>
        if flag = intBytes 0 then .poll links rest sz du next else .read p' sz next)).Avoids c := by
      intro flag
      change Micro.Avoids c (if flag = intBytes 0 then _ else _)
      split <;> exact havoid
    simp only [noteComp, hm]
    exact h.elsewhere (micro_setMicro ..) hcur hnext rfl
  | pollAgain hm =>
    obtain ⟨hcur, havoid⟩ := (h.stands.inCall hrings hm).avoids nofun nofun nofun
    simp only [noteComp, hm]
    exact h.elsewhere (micro_setMicro ..) hcur havoid rfl

/-! ### A step of a service thread -/

/-- **Only process `q` is served from the `k`-th ring buffer** of a channel. -/
def Sole (conf : Conf P) (ch : SinkChan P) (p : P) (c k : ℕ) (q : P) : Prop :=
  Conf.node ch q = k ∧
    ∀ q' link, link ∈ conf.ltab p q' → link.channel = c → Conf.node ch q' = k → q' = q

theorem delivered_append {t' : Traced P σ} {q' : P} {g : Grant P}
    (h : t'.granted = Function.update t.granted q' (t.granted q' ++ [g])) :
    t'.delivered p c q = if q = q' ∧ g.sender = p ∧ g.chan = c then t.delivered p c q ++ g.data
      else t.delivered p c q := by
  by_cases hq : q = q'
  · subst hq
    by_cases hg : g.sender = p ∧ g.chan = c
    · simp [delivered, h, hg]
    · simp [delivered, h, hg]
  · simp [delivered, h, hq]

/-- A reply is sent from a channel. -/
theorem Streams.sent (h : t.Streams ch p c k q) (hwf : t.sys.Wf conf) (hrings : ch.Rings)
    (hch : (conf.chans p).sinks[c]? = some ch) (hsole : Sole conf ch p c k q) {p' q' : P}
    {r : GetRequest} {link : Link} {queue queue' : Queue P} {fd : List Byte}
    (hserve : t.sys.serving conf p' q' = some (r, link, queue, .sent queue' fd)) :
    (t.noteServe conf p' q' ((t.sys.setQueue p' link.channel queue').answered p' q' r link
      fd)).Streams ch p c k q := by
  obtain ⟨hr, hlink, hqueue, ch', hch', hsend⟩ := Dsys.serving_eq_some.mp hserve
  have hgrant : (t.noteServe conf p' q' ((t.sys.setQueue p' link.channel queue').answered p' q' r
      link fd)).granted = Function.update t.granted q'
        (t.granted q' ++ [⟨p', link.channel, fd.drop (preamble r.condRecv).length⟩]) := by
    simp only [noteServe, hserve]
  have hsys : t.noteServe conf p' q' ((t.sys.setQueue p' link.channel queue').answered p' q' r
      link fd) = { t with
        sys := (t.sys.setQueue p' link.channel queue').answered p' q' r link fd
        granted := Function.update t.granted q'
          (t.granted q' ++ [⟨p', link.channel, fd.drop (preamble r.condRecv).length⟩]) } := by
    simp only [noteServe, hserve]
  have hdelivered := delivered_append (p := p) (c := c) (q := q) hgrant
  by_cases hpc : p' = p ∧ link.channel = c
  · obtain ⟨rfl, rfl⟩ := hpc
    obtain rfl := Option.some.inj (hch.symm.trans hch')
    obtain ⟨ch'', hch'', hof⟩ := hwf.queues p' link.channel queue hqueue
    obtain rfl := Option.some.inj (hch.symm.trans hch'')
    have hnode := hrings.node_eq hof q'
    have hmem : link ∈ conf.ltab p' q' := by
      rw [hwf.serviceLink_eq] at hlink
      exact List.mem_of_find?_eq_some hlink
    cases hring : queue.ring? (queue.node q') with
    | none =>
      have hcopies := hrings.copies hof
      cases queue <;> simp [Queue.send, hring, Queue.copies] at hsend hcopies
    | some ring₀ =>
      rw [hof.send_eq hring] at hsend
      split at hsend
      · split at hsend <;> cases hsend
      · next hlen =>
        obtain ⟨rfl, rfl⟩ := SendOutcome.sent.inj (Option.some.inj hsend)
        have hset (i : ℕ) := Dsys.ring?_setQueue hqueue hring
          (ring₀.popped (sizeMul ch.dtype.bytes r.dunits)) p' link.channel i
        rw [List.drop_left] at hdelivered
        obtain ⟨ring, hq, heq⟩ := h.ring
        by_cases hk : Conf.node ch q' = k
        · obtain rfl := hsole.2 q' link hmem rfl hk
          have hq₀ : t.sys.ring? p' link.channel k = some ring₀ := by
            rw [Dsys.ring?, hqueue, ← hk, ← hnode]
            exact hring
          obtain rfl := Option.some.inj (hq₀.symm.trans hq)
          rw [hsys] at hdelivered ⊢
          refine ⟨h.stands, _, (hset k).trans (if_pos ⟨rfl, rfl, (hnode.trans hk).symm⟩), ?_⟩
          rw [hdelivered, if_pos ⟨rfl, rfl, rfl⟩, (hof.ring_wf hring).contents_popped
            (not_lt.mp hlen), List.append_assoc, List.take_append_drop]
          exact heq
        · have hne : q ≠ q' := fun heq => hk (heq ▸ hsole.1)
          rw [if_neg fun h => hne h.1] at hdelivered
          rw [hsys] at hdelivered ⊢
          refine h.congr rfl ((hset k).trans (if_neg fun h => hk ?_)) rfl rfl hdelivered
          rw [← hnode, ← h.2.2]
  · rw [if_neg fun h => hpc h.2] at hdelivered
    rw [hsys] at hdelivered ⊢
    exact h.congr rfl (Dsys.ring?_setQueue_of_ne t.sys (fun h => hpc ⟨h.1.symm, h.2.symm⟩) queue' k)
      rfl rfl hdelivered

/-! ### Runs -/

variable (prog) in
theorem sys_noteComp (t : Traced P σ) (q : P) (sys : Dsys P σ) :
    (t.noteComp prog q sys).sys = sys := by
  unfold noteComp
  split
  · split <;> rfl
  all_goals rfl

variable (conf) in
theorem sys_noteServe (t : Traced P σ) (p q : P) (sys : Dsys P σ) :
    (t.noteServe conf p q sys).sys = sys := by
  unfold noteServe
  split <;> rfl

/-- A step that is written down is a step. -/
theorem sys_step {a : DsysAct P} (hstep : t.step A conf prog a = some t') :
    t.sys.step A conf prog a = some t'.sys := by
  obtain ⟨sys, hsys, rfl⟩ := Option.map_eq_some_iff.mp hstep
  rw [hsys]
  cases a with
  | comp q => exact congrArg some (sys_noteComp prog t q sys).symm
  | serve p q => exact congrArg some (sys_noteServe conf t p q sys).symm
  | recv | deliverRequest | deliverData => rfl

/-- **Writing down changes nothing**: the runs that are written down are the runs. -/
theorem reaches_sys_iff {fresh : Fresh P} {init : P → σ} {s : Dsys P σ} :
    Reaches (Dsys.step A conf prog) (Dsys.start conf fresh init) s ↔
      ∃ t, Reaches (step A conf prog) (start conf fresh init) t ∧ t.sys = s := by
  constructor
  · intro h
    refine h.invariant (P := fun s => ∃ t, Reaches (step A conf prog) (start conf fresh init) t ∧
      t.sys = s) ?_ ⟨_, Reaches.refl _, rfl⟩
    rintro _ a s' ⟨t, ht, rfl⟩ ha
    obtain ⟨t', ht'⟩ : ∃ t', t.step A conf prog a = some t' := by
      rw [step, ha]
      exact ⟨_, rfl⟩
    exact ⟨t', ht.tail ht', Option.some.inj ((sys_step ht').symm.trans ha)⟩
  · rintro ⟨t, ht, rfl⟩
    exact ht.invariant (P := fun t => Reaches (Dsys.step A conf prog) (Dsys.start conf fresh init)
      t.sys) (fun _ _ _ h ha => h.tail (sys_step ha)) (Reaches.refl _)

variable (prog) in
theorem frame_noteComp (t : Traced P σ) (q' : P) (sys : Dsys P σ) (hp : p ≠ q') :
    (t.noteComp prog q' sys).puts p = t.puts p ∧
      (t.noteComp prog q' sys).current p = t.current p ∧
      (t.noteComp prog q' sys).granted = t.granted ∧
      (t.noteComp prog q' sys).gets p = t.gets p := by
  unfold noteComp
  split
  · split <;> simp [hp]
  all_goals simp [hp]

/-- A computation thread leaves the others and their queues alone. -/
theorem frame_moves_comp {s s' : Dsys P σ} {q' : P} (h : Dsys.Moves A conf prog s (.comp q') s')
    (hp : p ≠ q') : s'.comp p = s.comp p ∧ s'.queues p = s.queues p := by
  cases h <;> simp [hp]

/-- **A step keeps what a ring buffer holds.** -/
theorem Streams.step (h : t.Streams ch p c k q) (hwf : t.sys.Wf conf) (hrings : ch.Rings)
    (hch : (conf.chans p).sinks[c]? = some ch) (hk : k < ch.width)
    (hsole : Sole conf ch p c k q) {a : DsysAct P} (hstep : t.step A conf prog a = some t') :
    t'.Streams ch p c k q := by
  obtain ⟨sys, hsys, rfl⟩ := Option.map_eq_some_iff.mp hstep
  have hmoves := Dsys.moves_of_step hsys
  cases a with
  | comp q' =>
    by_cases hp : q' = p
    · subst hp
      exact h.moves_comp hwf hrings hch hk hmoves
    · have hnote := sys_noteComp prog t q' sys
      obtain ⟨hputs, hcurrent, hgranted, -⟩ := frame_noteComp prog t q' sys (Ne.symm hp)
      obtain ⟨hcomp, hqueues⟩ := frame_moves_comp hmoves (Ne.symm hp)
      refine h.congr ?_ ?_ hcurrent (congrFun hputs c) ?_
      · rw [hnote, hcomp]
      · rw [hnote, Dsys.ring?, Dsys.ring?, hqueues]
      · rw [delivered, delivered, hgranted]
  | serve p' q' =>
    cases hmoves with
    | sent hserve => exact h.sent hwf hrings hch hsole hserve
    | refused hserve =>
      simp only [noteServe, hserve]
      exact h.congr rfl rfl rfl rfl rfl
  | recv p' q' => cases hmoves; exact h.congr rfl rfl rfl rfl rfl
  | deliverRequest q' p' => cases hmoves; exact h.congr rfl rfl rfl rfl rfl
  | deliverData p' q' => cases hmoves; exact h.congr rfl rfl rfl rfl rfl

/-- Nothing was put and nothing was sent. -/
theorem streams_start (fresh : Fresh P) (init : P → σ) (hrings : ch.Rings)
    (hch : (conf.chans p).sinks[c]? = some ch) (hk : k < ch.width) :
    (start conf fresh init).Streams ch p c k q where
  stands := rfl
  ring := by
    obtain ⟨raw, hring⟩ := Dsys.exists_ring?_start fresh init hrings hch hk
    refine ⟨_, hring, ?_⟩
    rw [Mc121.contents_mc121Create]
    rfl

/-- **A ring buffer holds what it was given and has not sent**, in every run. -/
theorem streams_of_reaches {fresh : Fresh P} {init : P → σ}
    (ht : Reaches (step A conf prog) (start conf fresh init) t) (hrings : ch.Rings)
    (hch : (conf.chans p).sinks[c]? = some ch) (hk : k < ch.width)
    (hsole : Sole conf ch p c k q) : t.sys.Wf conf ∧ t.Streams ch p c k q := by
  refine ht.invariant (P := fun t => t.sys.Wf conf ∧ t.Streams ch p c k q) ?_
    ⟨Dsys.wf_start conf fresh init, streams_start fresh init hrings hch hk⟩
  rintro t a t' ⟨hwf, h⟩ hstep
  exact ⟨hwf.moves (Dsys.moves_of_step (sys_step hstep)), h.step hwf hrings hch hk hsole hstep⟩

/-- Distinct consumers have a ring buffer each. -/
theorem sole_of_nodup (hrole : ch.role = .replicate ∨ ch.role = .spread) (hnodup : ch.plist.Nodup)
    (hq : ch.plist[k]? = some q) : Sole conf ch p c k q := by
  obtain ⟨hk, hget⟩ := List.getElem?_eq_some_iff.mp hq
  have hnode (q' : P) : Conf.node ch q' = ch.plist.idxOf q' := by
    obtain hrole | hrole := hrole <;> rw [Conf.node, hrole]
  refine ⟨?_, fun q' link _ _ hk' => ?_⟩
  · rw [hnode, ← hget, hnodup.idxOf_getElem]
  · rw [hnode] at hk'
    subst hk'
    rw [← hget, List.getElem_idxOf]

omit [DecidableEq P] in
theorem length_received (t : Traced P σ) (p : P) (c k : ℕ) :
    (t.puts p c).length ≤ (t.received p c k).length + 1 ∧
      (t.received p c k).length ≤ (t.puts p c).length := by
  unfold received
  split
  · split
    · rw [List.length_dropLast]
      omega
    · omega
  · omega

end Traced

/-- **The consumers of a channel are given the same puts.**  In every reachable state, what was
sent to the `k`-th consumer of a `BC_ROLE_REPLICATE` or `BC_ROLE_SPREAD` sink and what is still in
its ring buffer is its share of every put, with the put in progress if the consumer comes before
the one that it waits for.  So no consumer is more than one put ahead of another. -/
theorem streams_agree (A : Arith) (conf : Conf P) (prog : P → Program σ) (fresh : Fresh P)
    (init : P → σ) (t : Traced P σ)
    (ht : Reaches (Traced.step A conf prog) (Traced.start conf fresh init) t) (p : P) (c : ℕ)
    (ch : SinkChan P) (hch : (conf.chans p).sinks[c]? = some ch)
    (hrole : ch.role = .replicate ∨ ch.role = .spread) (hnodup : ch.plist.Nodup) :
    (∀ k q, ch.plist[k]? = some q →
      (∃ ring, t.sys.ring? p c k = some ring ∧
        t.delivered p c q ++ ring.contents = (t.received p c k).flatMap (ch.share k)) ∧
      ∀ bs next, (t.sys.comp p).micro = some (.put c k bs next) → t.current p = some (c, k)) ∧
    ∀ k k', (t.received p c k).length ≤ (t.received p c k').length + 1 := by
  have hrings : ch.Rings := .inr ⟨hrole, hnodup⟩
  have hwidth : ch.width = ch.plist.length := by
    obtain hrole | hrole := hrole <;> rw [SinkChan.width, hrole]
  refine ⟨fun k q hq => ?_, fun k k' => ?_⟩
  · have hk : k < ch.width := hwidth ▸ (List.getElem?_eq_some_iff.mp hq).1
    obtain ⟨-, h⟩ := Traced.streams_of_reaches ht hrings hch hk
      (Traced.sole_of_nodup hrole hnodup hq)
    refine ⟨h.ring, fun bs next hm => ?_⟩
    cases h.stands.inCall hrings hm with
    | put hcur => exact hcur
    | elsewhere hcur havoid => exact absurd rfl havoid.1
  · exact (t.length_received p c k).2.trans (t.length_received p c k').1

/-- Two consumers, one of them a put ahead. -/
theorem streams_agree_ahead : ∃ t : Traced (Fin 3) ℕ, t.current 0 = some (0, 1) ∧
    t.puts 0 0 = [([5], 1), ([6, 7], 2)] ∧
    (∃ ring, t.sys.ring? 0 0 0 = some ring ∧ t.delivered 0 0 1 ++ ring.contents = [5, 6, 7]) ∧
    ∃ ring, t.sys.ring? 0 0 1 = some ring ∧ t.delivered 0 0 2 ++ ring.contents = [5] := by
  have hrun : ∃ t, run (Traced.step noArith (fanConf .replicate .pipe [1, 2])
      (fanProg [.put (.sink 0) (some [5]) 1, .put (.sink 0) (some [6, 7]) 2] 1))
      (Traced.start (fanConf .replicate .pipe [1, 2]) zeros fun _ => 0)
      [.comp 0, .comp 0, .comp 0, .comp 0, .comp 0, .comp 1, .comp 1, .deliverRequest 1 0,
        .recv 0 1, .serve 0 1, .comp 0] = some t ∧ t.current 0 = some (0, 1) ∧
      t.puts 0 0 = [([5], 1), ([6, 7], 2)] := ⟨_, rfl, rfl, rfl⟩
  obtain ⟨t, hrun, hcur, hputs⟩ := hrun
  obtain ⟨h, -⟩ := streams_agree noArith (fanConf .replicate .pipe [1, 2])
    (fanProg [.put (.sink 0) (some [5]) 1, .put (.sink 0) (some [6, 7]) 2] 1) zeros
    (fun _ => 0) t ⟨_, hrun⟩ 0 0 ⟨.replicate, [1, 2], .char, 2⟩ rfl (.inl rfl) (by decide)
  have h₀ : t.received 0 0 0 = [([5], 1), ([6, 7], 2)] := by
    rw [Traced.received_of_eq hcur, hputs]
    rfl
  have h₁ : t.received 0 0 1 = [([5], 1)] := by
    rw [Traced.received_of_eq hcur, hputs]
    rfl
  obtain ⟨⟨ring₀, hring₀, heq₀⟩, -⟩ := h 0 1 rfl
  obtain ⟨⟨ring₁, hring₁, heq₁⟩, -⟩ := h 1 2 rfl
  rw [h₀] at heq₀
  rw [h₁] at heq₁
  exact ⟨t, hcur, hputs, ⟨ring₀, hring₀, heq₀⟩, ring₁, hring₁, heq₁⟩

end Libdsys
