import Flashflow.Library.Barrier
import Flashflow.Loop.Model

/-! The invariants of the main loop. The client array and the states of the scheduler's table are
one configuration of the barrier protocol, and the trace is a run of that protocol. -/
namespace Flashflow
open Sched Program LabelledRun

/-! The loop as an instance of the barrier protocol. -/

/-- How many moves a client in this state has made in its measurement. -/
def CsmState.moves : CsmState → ℕ
  | .invalid | .failed | .connected => 0
  | .authing => 1
  | .authed => 2
  | .toldConnectTarget => 3
  | .connectedTarget => 4
  | .settingBw => 5
  | .bwSet => 6
  | .measuring => 7
  | .done => 8

def Phase.index : Phase → ℕ
  | .auth => 0
  | .connect => 1
  | .setBw => 2
  | .measure => 3

/-- The state in which the command of a phase may be sent. -/
def Phase.before : Phase → CsmState
  | .auth => .connected
  | .connect => .authed
  | .setBw => .connectedTarget
  | .measure => .bwSet

/-- The state between the command and its confirmation. -/
def Phase.waits : Phase → CsmState
  | .auth => .authing
  | .connect => .toldConnectTarget
  | .setBw => .settingBw
  | .measure => .measuring

/-- The state after the confirmation. -/
def Phase.reached : Phase → CsmState
  | .auth => .authed
  | .connect => .connectedTarget
  | .setBw => .bwSet
  | .measure => .done

theorem Phase.moves_before (p : Phase) : p.before.moves = 2 * p.index := by cases p <;> rfl

theorem Phase.moves_waits (p : Phase) : p.waits.moves = 2 * p.index + 1 := by cases p <;> rfl

theorem Phase.moves_reached (p : Phase) : p.reached.moves = 2 * p.index + 2 := by cases p <;> rfl

theorem Phase.index_injective {p q : Phase} (h : p.index = q.index) : p = q := by
  cases p <;> cases q <;> first | rfl | cases h

def Event.abs : Event → Barrier.Event ℕ UInt32
  | .started m => .opened m
  | .claimed c m => .joined c m
  | .sent c m p => .sent c m p.index
  | .confirmed c m p => .confirmed c m p.index
  | .failed m => .closed m false
  | .succeeded m => .closed m true

/-- Where a client is in the protocol. -/
def Meta.place (x : Meta) : Option (UInt32 × ℕ) :=
  if x.currentMId = 0 then none else some (x.currentMId, x.state.moves)

def Sched.State.stage : Sched.State → Barrier.Status
  | .waiting => .waiting
  | .inProgress => .running
  | .complete => .over

/-- How far a measurement is; what is not in the table is over. -/
def statusOf (s : Msms) (m : UInt32) : Barrier.Status :=
  ((s.stateOf m).map State.stage).getD .over

theorem statusOf_running {s : Msms} {m : UInt32} :
    statusOf s m = .running ↔ s.stateOf m = some .inProgress := by
  unfold statusOf
  rcases s.stateOf m with _ | st
  · simp
  · cases st <;> simp [State.stage]

theorem statusOf_waiting {s : Msms} {m : UInt32} :
    statusOf s m = .waiting ↔ s.stateOf m = some .waiting := by
  unfold statusOf
  rcases s.stateOf m with _ | st
  · simp
  · cases st <;> simp [State.stage]

def Coord.crew (s : Coord) : Barrier.Crew ℕ UInt32 where
  place c := s.metas[c]?.bind Meta.place
  status := statusOf s.msms

/-- The configuration before the first turn. -/
def startCrew (table : Msms) : Barrier.Crew ℕ UInt32 where
  place _ := none
  status := statusOf table

/-! The invariants. `table` is the scheduler's table as it was loaded. -/

def Meta.Idle (x : Meta) : Prop := x.currentMId = 0 ∧ x.state = .invalid ∧ x.fd = -1

def Meta.Working (x : Meta) : Prop :=
  x.currentMId ≠ 0 ∧ (x.state ≠ .invalid ∧ x.state ≠ .failed) ∧ 0 ≤ x.fd

/-- What holds after every single operation on a client. -/
structure Coherent (table : Msms) (s : Coord) : Prop where
  clients : ∀ x ∈ s.metas, x.Idle ∨ x.Working
  fds : ∀ (i j : ℕ) (x y : Meta), s.metas[i]? = some x → s.metas[j]? = some y → x.fd = y.fd →
    0 ≤ x.fd → i = j
  opened : ∀ x ∈ s.metas, 0 ≤ x.fd → x.fd.toNat ∈ s.openFds
  plans : ∀ i, (s.msms.get? i).map Measurement.plan = (table.get? i).map Measurement.plan
  zero_over : statusOf table 0 = .over
  strays : s.strays = []
  runs : Run (Barrier.Step 4) (startCrew table) (s.trace.map Event.abs) s.crew

/-- The clients of a measurement are as many and of the classes it asks for. -/
structure Hired (e : Measurement) (classes : List Bytes) : Prop where
  nulFree : e.NulFree
  dur : e.dur ≠ 0
  hosts : e.hosts ≠ []
  classes : classes.Perm (e.hosts.map fun h => utf8 h.cls)

/-- The classes of the clients that work for `m`. -/
def classesOf (metas : List Meta) (m : UInt32) : List Bytes :=
  (metas.filter fun x => x.currentMId = m).map Meta.cls

/-- All clients of `m` are between the command and the confirmation of one phase, or have just been
confirmed. -/
def InPhase (metas : List Meta) (m : UInt32) : Prop :=
  ∃ p : Phase, ∀ x ∈ metas, x.currentMId = m → x.state = p.waits ∨ x.state = p.reached

structure Staffed (s : Coord) (m : UInt32) : Prop where
  hired : ∃ e, s.msms.get? m = some e ∧ Hired e (classesOf s.metas m)
  phase : InPhase s.metas m

def Event.isFailed : Event → Bool
  | .failed _ => true
  | _ => false

def Event.isSucceeded : Event → Bool
  | .succeeded _ => true
  | _ => false

/-- The counters agree with the history. -/
structure Counted (s : Coord) : Prop where
  failures : s.countFailure = s.trace.countP Event.isFailed
  successes : s.countSuccess = s.trace.countP Event.isSucceeded

/-- Everything is in order, but for the measurement `m` in progress: its clients may be in any
states, and it may be missing in `known`. -/
structure Rest (table : Msms) (m : UInt32) (s : Coord) : Prop where
  coherent : Coherent table s
  nodup : s.known.Nodup
  live : s.msms.stateOf m = some .inProgress
  known_iff : ∀ i, i ≠ m → (i ∈ s.known ↔ s.msms.stateOf i = some .inProgress)
  staffed : ∀ i ∈ s.known, i ≠ m → Staffed s i
  counted : Counted s

/-- Everything is in order. -/
structure Quiet (table : Msms) (s : Coord) : Prop where
  coherent : Coherent table s
  nodup : s.known.Nodup
  known_iff : ∀ i, i ∈ s.known ↔ s.msms.stateOf i = some .inProgress
  staffed : ∀ i ∈ s.known, Staffed s i
  counted : Counted s

/-- What is received fills the buffer, or it is all line ends: a handler runs out of its buffer. -/
def Answer.Overruns (a : Answer) : Prop :=
  ∃ got, a.recv = some got ∧ (readBufLen ≤ got.length ∨ got ≠ [] ∧ ∀ b ∈ got, isNewline b = true)

/-- The ways in which the loop may end early: a client array slot with `bg` in its class, the
clock or what is received in the answer taken last, and durations or names that cannot be used. -/
def Benign (os : Os) (table : Msms) : Abort → Prop
  | .assertBgConns => True
  | .assertGettimeofday => ∃ k, os.tick = k + 1 ∧ (os.script k).time = none
  | .outOfBounds => ∃ k, os.tick = k + 1 ∧ (os.script k).Overruns
  | .panic .overflow =>
    ∃ m ∈ table.entries, m.state ≠ .complete ∧ ¬ 3 * m.dur.toNat < 2 ^ 32
  | .panic .interiorNul => ∃ m ∈ table.entries, m.state ≠ .complete ∧ ¬ m.NulFree
  | _ => False

/-- A background client shares its class with a host that does not have one connection. -/
def Mismatch (table : Msms) (s : Coord) : Prop :=
  ∃ x ∈ s.metas, x.isBg = true ∧ ∃ m ∈ table.entries, m.state ≠ .complete ∧
    ∃ h ∈ m.hosts, utf8 h.cls = x.cls ∧ h.conns ≠ 1

/-- What holds where the loop ends early. -/
structure Aborted (table : Msms) (e : Abort) (s : Loop) : Prop where
  benign : Benign s.os table e
  background : e = .assertBgConns → Mismatch table s.co
  strays : s.co.strays = []
  runs : ∃ x, Run (Barrier.Step 4) (startCrew table) (s.co.trace.map Event.abs) x

theorem Coherent.aborted {table : Msms} {s : Loop} {e : Abort} (h : Coherent table s.co)
    (he : Benign s.os table e) (hbg : e = .assertBgConns → Mismatch table s.co) :
    Aborted table e s :=
  ⟨he, hbg, h.strays, _, h.runs⟩

/-! Consequences. -/

section
variable {table : Msms} {s : Coord} {m : UInt32} {c : ℕ} {x : Meta}

theorem Coherent.seen (h : Coherent table s) : Barrier.Seen (s.trace.map Event.abs) s.crew :=
  Barrier.Seen.run (fun _ => rfl) h.runs

/-- No measurement has the id 0 of an idle client. -/
theorem Coherent.status_zero (h : Coherent table s) : statusOf s.msms 0 = .over :=
  Barrier.status_over h.runs h.zero_over

theorem Coherent.nonzero (h : Coherent table s) (hm : s.msms.stateOf m = some .inProgress) :
    m ≠ 0 := by
  rintro rfl
  have hrun := statusOf_running.mpr hm
  rw [h.status_zero] at hrun
  cases hrun

theorem Meta.place_of_ne {x : Meta} (h : x.currentMId ≠ 0) :
    x.place = some (x.currentMId, x.state.moves) := if_neg h

theorem Meta.place_eq_some {x : Meta} {n : ℕ} (h : x.place = some (m, n)) :
    x.currentMId = m ∧ x.state.moves = n ∧ m ≠ 0 := by
  unfold place at h
  split at h
  · cases h
  next hne =>
    obtain ⟨rfl, rfl⟩ : x.currentMId = m ∧ x.state.moves = n := by simpa using h
    exact ⟨rfl, rfl, hne⟩

theorem Coord.crew_place {n : ℕ} : s.crew.place c = some (m, n) ↔
    ∃ x, s.metas[c]? = some x ∧ x.place = some (m, n) := by
  simp [crew, Option.bind_eq_some_iff]

/-- Only measurements in progress have clients. -/
theorem Coherent.owner_live (h : Coherent table s) (hx : x ∈ s.metas) (hc : x.currentMId ≠ 0) :
    s.msms.stateOf x.currentMId = some .inProgress := by
  obtain ⟨c, hc'⟩ := List.mem_iff_getElem?.mp hx
  have hp : s.crew.place c = some (x.currentMId, x.state.moves) :=
    Coord.crew_place.mpr ⟨x, hc', Meta.place_of_ne hc⟩
  exact statusOf_running.mp (h.seen.placed hp).1

theorem Coherent.working (h : Coherent table s) (hx : x ∈ s.metas) (hc : x.currentMId ≠ 0) :
    x.Working :=
  (h.clients x hx).resolve_left fun hi => hc hi.1

theorem Coherent.idle (h : Coherent table s) (hx : x ∈ s.metas) (hc : x.currentMId = 0) : x.Idle :=
  (h.clients x hx).resolve_right fun hw => hw.1 hc

/-- An entry is still there where the plans are. -/
theorem exists_planned {a b : Msms} {e : Measurement}
    (h : (b.get? m).map Measurement.plan = (a.get? m).map Measurement.plan)
    (he : a.get? m = some e) : ∃ e', b.get? m = some e' ∧ e'.plan = e.plan := by
  rw [he, Option.map_some] at h
  exact Option.map_eq_some_iff.mp h

/-- An entry keeps the plan it was loaded with. -/
theorem Coherent.loaded (h : Coherent table s) {e : Measurement} (he : s.msms.get? m = some e) :
    ∃ e₀, table.get? m = some e₀ ∧ e₀.plan = e.plan := exists_planned (h.plans m).symm he

/-- An entry that is not complete was not complete when it was loaded. -/
theorem Coherent.loaded_incomplete (h : Coherent table s) {e : Measurement}
    (he : s.msms.get? m = some e) (hst : e.state ≠ .complete) :
    ∃ e₀ ∈ table.entries, e₀.state ≠ .complete ∧ e₀.plan = e.plan := by
  obtain ⟨e₀, h₀, hplan⟩ := h.loaded he
  refine ⟨e₀, (Msms.get?_eq_some_iff.mp h₀).1, fun hc => ?_, hplan⟩
  have hover : (startCrew table).status m = .over := by
    simp [startCrew, statusOf, Msms.stateOf, h₀, hc, State.stage]
  have hnow := Barrier.status_over h.runs hover
  simp only [Coord.crew, statusOf, Msms.stateOf, he, Option.map_some, Option.getD_some] at hnow
  cases hs : e.state <;> simp_all [State.stage]

end
end Flashflow
