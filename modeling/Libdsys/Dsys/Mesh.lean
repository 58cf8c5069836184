import Mathlib.Algebra.Order.BigOperators.Group.Finset
import Mathlib.Data.Finset.Card
import Mathlib.Data.Fintype.Defs
import Mathlib.Data.Fintype.Basic
import Libdsys.Machinery.Runs

/-!
# Dsys/Mesh — the socket network

`__bc_socket_network_create` at every process: open two listeners, accept both connections of every
lower rank, close the listeners, and connect to every higher rank.  An accepted connection is
identified by the message that the connector sends on it.

* `Mesh.Fires` — what a step can do.
* `Mesh.Fires.forward` — every step takes one process forward, so every run ends.
-/

open Machinery

namespace Libdsys

/-- `REQ_SOCK` and `DATA_SOCK`. -/
inductive SockType
  | req
  | data
deriving DecidableEq, Repr

instance : Fintype SockType := ⟨{.req, .data}, fun t => by cases t <;> decide⟩

/-- The value of the enumerator. -/
def SockType.num : SockType → ℕ
  | .req => 0
  | .data => 1

/-- A connection: who made it, and what it meant to reach. -/
structure Conn where
  client : ℕ
  rank : ℕ
  type : SockType
deriving DecidableEq, Repr

inductive Side
  | connected
  | accepted
deriving DecidableEq, Repr

/-- A file descriptor: one end of a connection. -/
structure Fd where
  conn : Conn
  side : Side
deriving DecidableEq, Repr

/-- The other end. -/
def Fd.peer : Fd → Fd
  | ⟨c, .connected⟩ => ⟨c, .accepted⟩
  | ⟨c, .accepted⟩ => ⟨c, .connected⟩

/-- `__bc_rank2idx`, at the process of rank `rank`. -/
def rank2idx (rank x : ℕ) : ℕ := if x > rank then x - 1 else x

/-- What `__bc_service_thread` takes for its remote at index `idx`. -/
def remote (rank idx : ℕ) : ℕ := if idx ≥ rank then idx + 1 else idx

/-- `htons` of the port that the processes of a network of `size` use for a rank. -/
def port (size rank : ℕ) : SockType → ℕ
  | .data => (6666 + size + rank) % 2 ^ 16
  | .req => (6666 + rank) % 2 ^ 16

/-- Where a process stands in `__bc_socket_network_create`. -/
inductive Phase
  /-- It is about to bind the listener of a type, and listen. -/
  | listen (t : SockType)
  /-- It waits in the `i`-th round for a connection. -/
  | accept (i : ℕ) (t : SockType)
  /-- It waits for the message on the connection it has accepted. -/
  | recv (i : ℕ) (t : SockType) (c : Conn)
  /-- It is about to close the listeners. -/
  | close
  /-- It tries to connect to rank `i`. -/
  | connect (i : ℕ) (t : SockType)
  /-- It is about to send its message. -/
  | send (i : ℕ) (t : SockType)
  | done
deriving DecidableEq, Repr

/-- The processes and the connections between them. -/
structure Mesh where
  phase : ℕ → Phase
  /-- The static variable `id` of each process. -/
  id : ℕ → ℕ × SockType
  listening : ℕ → SockType → Bool
  /-- The connections that wait at a listener. -/
  backlog : ℕ → SockType → List Conn
  /-- The connections that a listener has handed out. -/
  accepted : ℕ → SockType → List Conn
  /-- The message sent on a connection. -/
  sent : Conn → Option (ℕ × SockType)
  /-- What was written to an entry of the socket list of a process, the last first. -/
  slist : ℕ → ℕ → SockType → List Fd

inductive MeshAct
  /-- Process `p` binds a listener and listens. -/
  | listen (p : ℕ)
  /-- It accepts connection `c`. -/
  | accept (p : ℕ) (c : Conn)
  /-- It receives the message and fills an entry. -/
  | recv (p : ℕ)
  /-- It closes its listeners. -/
  | close (p : ℕ)
  /-- It gets through to the listener of process `q` for type `t`. -/
  | connect (p q : ℕ) (t : SockType)
  /-- It sends its message and fills an entry. -/
  | send (p : ℕ)
deriving DecidableEq, Repr

namespace Mesh

/-- The network at the start. -/
def start : Mesh where
  phase _ := .listen .req
  id _ := (0, .req)
  listening _ _ := false
  backlog _ _ := []
  accepted _ _ := []
  sent _ := none
  slist _ _ _ := []

def setPhase (s : Mesh) (p : ℕ) (ph : Phase) : Mesh :=
  { s with phase := Function.update s.phase p ph }

/-- The entry for type `t` at index `idx` of process `p` becomes `fd`. -/
def fill (s : Mesh) (p idx : ℕ) (t : SockType) (fd : Fd) : Mesh :=
  { s with
    slist := fun p' idx' t' =>
      if p' = p ∧ idx' = idx ∧ t' = t then fd :: s.slist p' idx' t' else s.slist p' idx' t' }

/-- The listener of process `p` for type `t` is bound, and listens. -/
def opened (s : Mesh) (p : ℕ) (t : SockType) : Mesh :=
  { s with listening := fun p' t' => if p' = p ∧ t' = t then true else s.listening p' t' }

/-- It hands out connection `c`. -/
def handed (s : Mesh) (p : ℕ) (t : SockType) (c : Conn) : Mesh :=
  { s with
    backlog := fun p' t' =>
      if p' = p ∧ t' = t then (s.backlog p' t').erase c else s.backlog p' t'
    accepted := fun p' t' =>
      if p' = p ∧ t' = t then s.accepted p' t' ++ [c] else s.accepted p' t' }

/-- Process `p` reads message `m` on connection `c` and fills the entry that it names. -/
def identified (s : Mesh) (p : ℕ) (c : Conn) (m : ℕ × SockType) : Mesh :=
  { s with id := Function.update s.id p m }.fill p (rank2idx p m.1) m.2 ⟨c, .accepted⟩

/-- Process `p` closes its listeners and sets its own rank. -/
def closed (s : Mesh) (p : ℕ) : Mesh :=
  { s with
    id := Function.update s.id p (p, (s.id p).2)
    listening := fun p' t' => if p' = p then false else s.listening p' t'
    backlog := fun p' t' => if p' = p then [] else s.backlog p' t' }

/-- Process `p` sets the type, and its connection to rank `i` waits at the listener of `q`. -/
def connected (s : Mesh) (p i : ℕ) (t : SockType) (q : ℕ) (t' : SockType) : Mesh :=
  { s with
    id := Function.update s.id p ((s.id p).1, t)
    backlog := fun q' t'' =>
      if q' = q ∧ t'' = t' then s.backlog q' t'' ++ [⟨p, i, t⟩] else s.backlog q' t'' }

/-- Process `p` sends its message to rank `i` and fills the entry of that rank. -/
def announced (s : Mesh) (p i : ℕ) (t : SockType) : Mesh :=
  { s with sent := Function.update s.sent ⟨p, i, t⟩ (some (s.id p)) }.fill p (rank2idx p i) t
    ⟨⟨p, i, t⟩, .connected⟩

/-- Some listener on the host of process `p` has its port for type `t`. -/
def Taken {H : Type*} (size : ℕ) (host : ℕ → H) (s : Mesh) (p : ℕ) (t : SockType) : Prop :=
  ∃ q < size, ∃ t', s.listening q t' = true ∧ host q = host p ∧
    port size q t' = port size p t ∧ port size p t ≠ 0

instance {H : Type*} [DecidableEq H] (size : ℕ) (host : ℕ → H) (s : Mesh) (p : ℕ) (t : SockType) :
    Decidable (s.Taken size host p t) :=
  inferInstanceAs (Decidable (∃ q < size, _))

/-- The listener of process `q` for type `t'` is what a connection to rank `i` for `t` finds. -/
def Answers {H : Type*} (size : ℕ) (host : ℕ → H) (s : Mesh) (q : ℕ) (t' : SockType) (i : ℕ)
    (t : SockType) : Prop :=
  s.listening q t' = true ∧ host q = host i ∧ port size q t' = port size i t ∧
    port size i t ≠ 0

instance {H : Type*} [DecidableEq H] (size : ℕ) (host : ℕ → H) (s : Mesh) (q : ℕ) (t' : SockType)
    (i : ℕ) (t : SockType) : Decidable (s.Answers size host q t' i t) :=
  inferInstanceAs (Decidable (_ ∧ _ ∧ _ ∧ _))

/-- The `i`-th round of the loop that accepts, or what follows the loop. -/
def accepts (p i : ℕ) : Phase := if i < p then .accept i .req else .close

/-- The round of the loop that connects to rank `i`, or what follows the loop. -/
def connects (size i : ℕ) : Phase := if i < size then .connect i .req else .done

/-- What follows the listener of a type. -/
def listened (p : ℕ) : SockType → Phase
  | .req => .listen .data
  | .data => accepts p 0

/-- What follows the connection of a type in round `i` of the loop that accepts. -/
def received (p i : ℕ) : SockType → Phase
  | .req => .accept i .data
  | .data => accepts p (i + 1)

/-- What follows the connection of a type to rank `i`. -/
def sentTo (size i : ℕ) : SockType → Phase
  | .req => .connect i .data
  | .data => connects size (i + 1)

/-- One step of a process of a network of `size` processes, process `p` on host `host p`. -/
def step {H : Type*} [DecidableEq H] (size : ℕ) (host : ℕ → H) (s : Mesh) :
    MeshAct → Option Mesh
  | .listen p =>
    match s.phase p with
    | .listen t =>
      if p < size then
        -- where `bind` fails, the listeners that were not reached stay closed
        some (if s.Taken size host p t then s.setPhase p (accepts p 0)
          else (s.opened p t).setPhase p (listened p t))
      else none
    | _ => none
  | .accept p c =>
    match s.phase p with
    | .accept i t =>
      if c ∈ s.backlog p t then some ((s.handed p t c).setPhase p (.recv i t c)) else none
    | _ => none
  | .recv p =>
    match s.phase p with
    | .recv i t c => (s.sent c).map fun m => (s.identified p c m).setPhase p (received p i t)
    | _ => none
  | .close p =>
    if s.phase p = .close then some ((s.closed p).setPhase p (connects size (p + 1))) else none
  | .connect p q t' =>
    match s.phase p with
    | .connect i t =>
      if q < size ∧ s.Answers size host q t' i t then
        some ((s.connected p i t q t').setPhase p (.send i t))
      else none
    | _ => none
  | .send p =>
    match s.phase p with
    | .send i t => some ((s.announced p i t).setPhase p (sentTo size i t))
    | _ => none

end Mesh

/-! ## How far a process has come -/

theorem SockType.num_le (t : SockType) : t.num ≤ 1 := by cases t <;> decide

theorem SockType.num_injective : Function.Injective SockType.num := by
  intro t t' h
  cases t <;> cases t' <;> first | rfl | cases h

namespace Phase

/-- The steps that process `p` has behind it. -/
def pos (size p : ℕ) : Phase → ℕ
  | listen t => t.num
  | accept i t => 4 * i + 2 * t.num + 2
  | recv i t _ => 4 * i + 2 * t.num + 3
  | close => 4 * p + 2
  | connect i t => 4 * i + 2 * t.num - 1
  | send i t => 4 * i + 2 * t.num
  | done => 4 * size - 1

/-- The rounds of the loops are in their bounds, and only the processes of the network run. -/
def InRange (size p : ℕ) : Phase → Prop
  | listen t => t = .req ∨ p < size
  | accept i _ => i < p ∧ p < size
  | recv i _ _ => i < p ∧ p < size
  | close => p < size
  | connect i _ => p < i ∧ i < size
  | send i _ => p < i ∧ i < size
  | done => p < size

/-- The connection of which the message is awaited. -/
def held : Phase → Option Conn
  | recv _ _ c => some c
  | _ => none

theorem InRange.pos_lt {size p : ℕ} {ph : Phase} (h : ph.InRange size p) :
    ph.pos size p < 4 * size ∨ ph.pos size p = 0 := by
  cases ph with
  | listen t =>
    have := t.num_le
    obtain rfl | h := h
    · exact .inr rfl
    · exact .inl (by simp only [pos]; omega)
  | accept i t =>
    have := t.num_le
    exact .inl (by simp only [pos, InRange] at h ⊢; omega)
  | recv i t c =>
    have := t.num_le
    exact .inl (by simp only [pos, InRange] at h ⊢; omega)
  | close => exact .inl (by simp only [pos, InRange] at h ⊢; omega)
  | connect i t =>
    have := t.num_le
    exact .inl (by simp only [pos, InRange] at h ⊢; omega)
  | send i t =>
    have := t.num_le
    exact .inl (by simp only [pos, InRange] at h ⊢; omega)
  | done => exact .inl (by simp only [pos, InRange] at h ⊢; omega)

end Phase

namespace Mesh

theorem inRange_accepts {size p i : ℕ} (hp : p < size) : (accepts p i).InRange size p := by
  unfold accepts
  split
  · exact ⟨‹_›, hp⟩
  · exact hp

theorem pos_accepts {size p i : ℕ} (hi : i ≤ p) : (accepts p i).pos size p = 4 * i + 2 := by
  unfold accepts
  split
  · rfl
  · obtain rfl : i = p := by omega
    rfl

theorem inRange_connects {size p i : ℕ} (hpi : p < i) (hp : p < size) :
    (connects size i).InRange size p := by
  unfold connects
  split
  · exact ⟨hpi, ‹_›⟩
  · exact hp

theorem inRange_listened {size p : ℕ} {t : SockType} (hp : p < size) :
    (listened p t).InRange size p := by
  cases t with
  | req => exact .inr hp
  | data => exact inRange_accepts hp

theorem pos_listened {size p : ℕ} {t : SockType} : (listened p t).pos size p = t.num + 1 := by
  cases t with
  | req => rfl
  | data => exact pos_accepts (Nat.zero_le p)

theorem inRange_received {size p i : ℕ} {t : SockType} (hi : i < p) (hp : p < size) :
    (received p i t).InRange size p := by
  cases t with
  | req => exact ⟨hi, hp⟩
  | data => exact inRange_accepts hp

theorem pos_received {size p i : ℕ} {t : SockType} (hi : i < p) :
    (received p i t).pos size p = 4 * i + 2 * t.num + 4 := by
  cases t with
  | req => rfl
  | data => exact pos_accepts hi

theorem pos_connects {size p i : ℕ} (hi : i ≤ size) :
    (connects size i).pos size p = 4 * i - 1 := by
  unfold connects
  split
  · rfl
  · obtain rfl : i = size := by omega
    rfl

theorem inRange_sentTo {size p i : ℕ} {t : SockType} (hpi : p < i) (hi : i < size) :
    (sentTo size i t).InRange size p := by
  cases t with
  | req => exact ⟨hpi, hi⟩
  | data => exact inRange_connects (by omega) (by omega)

theorem pos_sentTo {size p i : ℕ} {t : SockType} (hi : i < size) :
    (sentTo size i t).pos size p = 4 * i + 2 * t.num + 1 := by
  cases t with
  | req => rfl
  | data => exact pos_connects hi

@[simp] theorem held_accepts (p i : ℕ) : (accepts p i).held = none := by
  unfold accepts
  split <;> rfl

@[simp] theorem held_connects (size i : ℕ) : (connects size i).held = none := by
  unfold connects
  split <;> rfl

@[simp] theorem held_listened (p : ℕ) (t : SockType) : (listened p t).held = none := by
  cases t with
  | req => rfl
  | data => exact held_accepts p 0

@[simp] theorem held_received (p i : ℕ) (t : SockType) : (received p i t).held = none := by
  cases t with
  | req => rfl
  | data => exact held_accepts p (i + 1)

@[simp] theorem held_sentTo (size i : ℕ) (t : SockType) : (sentTo size i t).held = none := by
  cases t with
  | req => rfl
  | data => exact held_connects size (i + 1)

@[simp] theorem setPhase_self (s : Mesh) (p : ℕ) (ph : Phase) : (s.setPhase p ph).phase p = ph :=
  Function.update_self _ _ _

/-- The steps that process `p` has behind it. -/
def pos (s : Mesh) (size p : ℕ) : ℕ := (s.phase p).pos size p

/-! ## Steps -/

section Steps

variable {H : Type*} [DecidableEq H] {size : ℕ} {host : ℕ → H} {s s' : Mesh} {p : ℕ}

/-- **What a step can do.** -/
inductive Fires (size : ℕ) (host : ℕ → H) (s : Mesh) : Mesh → Prop
  | refused {p : ℕ} {t : SockType} (hp : p < size) (hph : s.phase p = .listen t)
      (ht : s.Taken size host p t) :
    Fires size host s (s.setPhase p (accepts p 0))
  | opened {p : ℕ} {t : SockType} (hp : p < size) (hph : s.phase p = .listen t)
      (ht : ¬s.Taken size host p t) :
    Fires size host s ((s.opened p t).setPhase p (listened p t))
  | handed {p i : ℕ} {t : SockType} {c : Conn} (hph : s.phase p = .accept i t)
      (hc : c ∈ s.backlog p t) :
    Fires size host s ((s.handed p t c).setPhase p (.recv i t c))
  | identified {p i : ℕ} {t : SockType} {c : Conn} {m : ℕ × SockType}
      (hph : s.phase p = .recv i t c) (hm : s.sent c = some m) :
    Fires size host s ((s.identified p c m).setPhase p (received p i t))
  | closed {p : ℕ} (hph : s.phase p = .close) :
    Fires size host s ((s.closed p).setPhase p (connects size (p + 1)))
  | connected {p i q : ℕ} {t t' : SockType} (hph : s.phase p = .connect i t) (hq : q < size)
      (h : s.Answers size host q t' i t) :
    Fires size host s ((s.connected p i t q t').setPhase p (.send i t))
  | announced {p i : ℕ} {t : SockType} (hph : s.phase p = .send i t) :
    Fires size host s ((s.announced p i t).setPhase p (sentTo size i t))

theorem fires_of_step {a : MeshAct} (h : step size host s a = some s') : Fires size host s s' := by
  cases a with
  | listen p =>
    cases hph : s.phase p with
    | listen t =>
      simp only [step, hph] at h
      obtain ⟨hp, ⟨⟩⟩ := Option.ite_none_right_eq_some.mp h
      split
      · exact .refused hp hph ‹_›
      · exact .opened hp hph ‹_›
    | _ => simp [step, hph] at h
  | accept p c =>
    cases hph : s.phase p with
    | accept i t =>
      simp only [step, hph] at h
      obtain ⟨hc, ⟨⟩⟩ := Option.ite_none_right_eq_some.mp h
      exact .handed hph hc
    | _ => simp [step, hph] at h
  | recv p =>
    cases hph : s.phase p with
    | recv i t c =>
      simp only [step, hph] at h
      obtain ⟨m, hm, rfl⟩ := Option.map_eq_some_iff.mp h
      exact .identified hph hm
    | _ => simp [step, hph] at h
  | close p =>
    obtain ⟨hph, ⟨⟩⟩ := Option.ite_none_right_eq_some.mp h
    exact .closed hph
  | connect p q t' =>
    cases hph : s.phase p with
    | connect i t =>
      simp only [step, hph] at h
      obtain ⟨⟨hq, ha⟩, ⟨⟩⟩ := Option.ite_none_right_eq_some.mp h
      exact .connected hph hq ha
    | _ => simp [step, hph] at h
  | send p =>
    cases hph : s.phase p with
    | send i t =>
      simp only [step, hph] at h
      obtain ⟨⟩ := h
      exact .announced hph
    | _ => simp [step, hph] at h

/-! ### Every step takes some process forward -/

/-- Process `p` is the one that comes forward. -/
structure Forward (size p : ℕ) (s s' : Mesh) : Prop where
  lt : p < size
  others : ∀ x, x ≠ p → s'.phase x = s.phase x
  pos_lt : s.pos size p < s'.pos size p
  inRange : (s'.phase p).InRange size p

theorem forward_setPhase {t : Mesh} {ph : Phase} (hp : p < size) (ht : t.phase = s.phase)
    (hpos : s.pos size p < ph.pos size p) (hph : ph.InRange size p) :
    Forward size p s (t.setPhase p ph) where
  lt := hp
  others x hx := (Function.update_of_ne hx _ _).trans (congrFun ht x)
  pos_lt := by
    change _ < ((t.setPhase p ph).phase p).pos size p
    rwa [setPhase_self]
  inRange := by rwa [setPhase_self]

omit [DecidableEq H] in
theorem Fires.forward (h : Fires size host s s') (hs : ∀ p, (s.phase p).InRange size p) :
    ∃ p, Forward size p s s' := by
  cases h with
  | @refused p t hp hph =>
    have ht := t.num_le
    refine ⟨p, forward_setPhase hp rfl ?_ (inRange_accepts hp)⟩
    rw [pos_accepts (Nat.zero_le p), pos, hph, Phase.pos]
    omega
  | @opened p t hp hph =>
    refine ⟨p, forward_setPhase hp rfl ?_ (inRange_listened hp)⟩
    rw [pos_listened, pos, hph]
    exact Nat.lt_succ_self _
  | @handed p i t c hph hc =>
    obtain ⟨hi, hp⟩ : (Phase.accept i t).InRange size p := hph ▸ hs p
    refine ⟨p, forward_setPhase hp rfl ?_ ⟨hi, hp⟩⟩
    rw [pos, hph]
    exact Nat.lt_succ_self _
  | @identified p i t c m hph hm =>
    obtain ⟨hi, hp⟩ : (Phase.recv i t c).InRange size p := hph ▸ hs p
    refine ⟨p, forward_setPhase hp rfl ?_ (inRange_received hi hp)⟩
    rw [pos_received hi, pos, hph]
    exact Nat.lt_succ_self _
  | @closed p hph =>
    have hp : Phase.close.InRange size p := hph ▸ hs p
    refine ⟨p, forward_setPhase hp rfl ?_ (inRange_connects p.lt_succ_self hp)⟩
    rw [pos_connects hp, pos, hph, Phase.pos]
    omega
  | @connected p i q t t' hph =>
    obtain ⟨hpi, hi⟩ : (Phase.connect i t).InRange size p := hph ▸ hs p
    refine ⟨p, forward_setPhase (hpi.trans hi) rfl ?_ ⟨hpi, hi⟩⟩
    rw [pos, hph, Phase.pos, Phase.pos]
    omega
  | @announced p i t hph =>
    obtain ⟨hpi, hi⟩ : (Phase.send i t).InRange size p := hph ▸ hs p
    refine ⟨p, forward_setPhase (hpi.trans hi) rfl ?_ (inRange_sentTo hpi hi)⟩
    rw [pos_sentTo hi, pos, hph]
    exact Nat.lt_succ_self _

/-- The steps that the processes have before them. -/
def remaining (size : ℕ) (s : Mesh) : ℕ := ∑ p ∈ Finset.range size, (4 * size - s.pos size p)

theorem remaining_lt {a : MeshAct} (hs : ∀ p, (s.phase p).InRange size p)
    (h : step size host s a = some s') :
    (∀ p, (s'.phase p).InRange size p) ∧ s'.remaining size < s.remaining size := by
  obtain ⟨p, hp, hothers, hlt, hin⟩ := (fires_of_step h).forward hs
  have hpos : ∀ x ≠ p, s'.pos size x = s.pos size x := fun x hx => congrArg _ (hothers x hx)
  constructor
  · intro x
    by_cases hx : x = p
    · exact hx ▸ hin
    · rw [hothers x hx]
      exact hs x
  · refine Finset.sum_lt_sum (fun x _ => ?_) ⟨p, Finset.mem_range.mpr hp, ?_⟩
    · by_cases hx : x = p
      · subst hx
        omega
      · rw [hpos x hx]
    · have hbound : s'.pos size p < 4 * size ∨ s'.pos size p = 0 := hin.pos_lt
      omega

variable (host) in
/-- Every run can be continued until nothing is enabled. -/
theorem exists_stuck (hs : ∀ p, (s.phase p).InRange size p) :
    ∃ t, Reaches (step size host) s t ∧ ∀ a, step size host t a = none := by
  have hstep : ∀ (s : Mesh) (a : MeshAct) (t : Mesh), (∀ p, (s.phase p).InRange size p) →
      step size host s a = some t →
      (∀ p, (t.phase p).InRange size p) ∧ t.remaining size < s.remaining size :=
    fun _ _ _ hs ha => remaining_lt hs ha
  obtain ⟨t, hst, -, ht⟩ := exists_halted hstep hs
  exact ⟨t, hst, ht⟩

end Steps

end Mesh

end Libdsys
