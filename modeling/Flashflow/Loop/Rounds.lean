import Flashflow.Loop.Turn
import Flashflow.Sched.Finish

/-! All runs of the program, call by call and turn by turn, and what is in order in all of them. -/
namespace Flashflow
open Sched Program Outcome LabelledRun

/-- The states at the head of the main loop. `main` calls `main_loop_once` first with an empty
table and then with the one that the last round has left. -/
inductive AtHead : Round → Loop → Prop
  | first {r : Round} {s : Loop} (hbase : r.base = .empty) (hs : r.start = .ok (some s)) :
      AtHead r s
  | again {r r' : Round} {s s' : Loop} (h : AtHead r' s')
      (hexit : schedFinished s'.co.msms = true) (hbase : r.base = s'.co.msms)
      (hs : r.start = .ok (some s)) : AtHead r s
  | turn {r : Round} {s s' : Loop} (h : AtHead r s) (hs : LoopStep s s') : AtHead r s'

/-- The states at a head and where a turn has ended, early or not. -/
def Passed (r : Round) (t : Loop) : Prop :=
  AtHead r t ∨ ∃ s, AtHead r s ∧ schedFinished s.co.msms = false ∧ t = (exec mainLoopTurn s).2

/-! The start of a round. -/

/-- The schedule `ms` of a round, and the table it was loaded into. -/
structure Loaded (r : Round) (ms : List Measurement) (table : Msms) : Prop where
  finished : schedFinished r.base = true
  parsed : parseLines r.lines = .ok ms
  inserted : checkAndInsertMeasurements r.base ms = .ok table

section
variable {r : Round} {ms : List Measurement} {table : Msms} {s t : Loop}

theorem Loaded.fresh (h : Loaded r ms table) : ∀ m ∈ ms, m.Fresh := parseLines_fresh h.parsed

theorem Loaded.accepted (h : Loaded r ms table) : Accepted ms := (checkAndInsert_ok h.inserted).1

theorem Loaded.tracks (h : Loaded r ms table) : Tracks ms table Dependency.Tasks.initial := by
  obtain ⟨ha, rfl⟩ := checkAndInsert_ok h.inserted
  exact .start ha h.finished h.fresh

/-- Exactly the measurements of the schedule are not over at the start. -/
theorem Loaded.not_over_iff (h : Loaded r ms table) (i : UInt32) :
    statusOf table i ≠ .over ↔ i ∈ ms.map Measurement.id := by
  constructor
  · intro hi
    cases he : table.get? i with
    | none => exact absurd (by simp [statusOf, Msms.stateOf, he]) hi
    | some e =>
      obtain ⟨hmem, rfl⟩ := Msms.get?_eq_some_iff.mp he
      have hst : e.state ≠ .complete := fun hc => hi (by
        simp [statusOf, Msms.stateOf, he, hc, State.stage])
      obtain ⟨m₀, hm₀, hid, -⟩ := h.tracks.origin hmem hst
      exact List.mem_map.mpr ⟨m₀, hm₀, hid⟩
  · intro hi
    obtain ⟨m, hm, rfl⟩ := List.mem_map.mp hi
    obtain ⟨ha, rfl⟩ := checkAndInsert_ok h.inserted
    simp [statusOf, Msms.stateOf, loaded_get? ha r.base hm, (h.fresh m hm).waiting, State.stage]

theorem Loaded.zero_over (h : Loaded r ms table) : statusOf table 0 = .over := by
  by_contra h0
  obtain ⟨m, hm, hid⟩ := List.mem_map.mp ((h.not_over_iff 0).mp h0)
  exact (h.fresh m hm).id_ne_zero hid

theorem Round.start_ok (h : r.start = .ok (some s)) : ∃ ms,
    parseLines r.lines = .ok ms ∧ checkAndInsertMeasurements r.base ms = .ok s.co.msms ∧
    (∀ x ∈ s.co.metas, x.Idle) ∧ s.co.known = [] ∧ s.co.strays = [] ∧ s.co.trace = [] ∧
    s.co.countSuccess = 0 ∧ s.co.countFailure = 0 := by
  simp only [Round.start, bind_eq_ok] at h
  obtain ⟨metas, hmetas, h⟩ := h
  split at h
  · cases h
  simp only [bind_eq_ok] at h
  obtain ⟨⟨msms, n⟩, hnew, h⟩ := h
  split at h
  · cases h
  obtain rfl := Option.some.inj (pure_eq_ok.mp h)
  obtain ⟨ms, hms, hload, -⟩ : ∃ ms, parseLines r.lines = .ok ms ∧
      checkAndInsertMeasurements r.base ms = .ok msms ∧ n = schedNum msms := by
    cases hn : schedNew r.rank r.base r.lines with
    | error e => simp [hn, Except.mapError] at hnew
    | ok p =>
      obtain rfl : p = (msms, n) := by simpa [hn, Except.mapError] using hnew
      exact schedNew_ok hn
  refine ⟨ms, hms, hload, fun x hx => ?_, rfl, rfl, rfl, rfl, rfl⟩
  have hidle := tcClientFileRead_idle hmetas x hx
  rw [← hidle]
  exact ⟨rfl, rfl, rfl⟩

/-- A round starts with everything in order. -/
theorem Round.start_quiet (hbase : schedFinished r.base = true) (h : r.start = .ok (some s)) :
    ∃ ms, Loaded r ms s.co.msms ∧ Quiet s.co.msms s.co := by
  obtain ⟨ms, hms, hload, hidle, hknown, hstrays, htrace, hok, hfail⟩ := Round.start_ok h
  have hl : Loaded r ms s.co.msms := ⟨hbase, hms, hload⟩
  have hcrew : startCrew s.co.msms = s.co.crew := by
    have hplace : ∀ c : ℕ, s.co.metas[c]?.bind Meta.place = none := by
      intro c
      cases hx : s.co.metas[c]? with
      | none => rfl
      | some x => simp [Meta.place, (hidle x (List.mem_of_getElem? hx)).1]
    simp only [startCrew, Coord.crew, hplace]
  have hrest : ∀ i, s.co.msms.stateOf i ≠ some .inProgress := by
    intro i hi
    obtain ⟨e, he, hst⟩ := Option.map_eq_some_iff.mp hi
    obtain ⟨m₀, -, -, -, hstat, -⟩ :=
      hl.tracks.origin (Msms.get?_eq_some_iff.mp he).1 (by simp [hst])
    simp [hst, State.status, Dependency.Tasks.initial] at hstat
  refine ⟨ms, hl, ⟨fun x hx => .inl (hidle x hx), ?_, ?_, fun _ => rfl, hl.zero_over, hstrays, ?_⟩,
    by simp [hknown], fun i => by simp [hknown, hrest], by simp [hknown],
    ⟨by simp [hfail, htrace], by simp [hok, htrace]⟩⟩
  · intro i j x y hx _ _ hfd
    have hidle' := (hidle x (List.mem_of_getElem? hx)).2.2
    omega
  · intro x hx hfd
    have hidle' := (hidle x hx).2.2
    omega
  · rw [htrace, hcrew]
    exact .nil

/-- Everything is in order at every head of the main loop, in every round. -/
theorem AtHead.quiet (h : AtHead r s) : ∃ ms table, Loaded r ms table ∧ Quiet table s.co := by
  induction h with
  | first hbase hs =>
    obtain ⟨ms, hl, hq⟩ := Round.start_quiet (hbase ▸ rfl) hs
    exact ⟨ms, _, hl, hq⟩
  | again _ hexit hbase hs _ =>
    obtain ⟨ms, hl, hq⟩ := Round.start_quiet (hbase ▸ hexit) hs
    exact ⟨ms, _, hl, hq⟩
  | turn _ hs ih =>
    obtain ⟨ms, table, hl, hq⟩ := ih
    exact ⟨ms, table, hl, (wp_returns (wp_mainLoopTurn hq) hs.2).2⟩

/-- Also a turn that ends early leaves a history that is a run of the barrier protocol. -/
theorem Passed.runs (h : Passed r t) : ∃ ms table, Loaded r ms table ∧ t.co.strays = [] ∧
    ∃ x, Run (Barrier.Step 4) (startCrew table) (t.co.trace.map Event.abs) x := by
  rcases h with h | ⟨s, hs, -, rfl⟩
  · obtain ⟨ms, table, hl, hq⟩ := h.quiet
    exact ⟨ms, table, hl, hq.coherent.strays, _, hq.coherent.runs⟩
  · obtain ⟨ms, table, hl, hq⟩ := hs.quiet
    have hwp := wp_mainLoopTurn hq
    rcases hex : exec mainLoopTurn s with ⟨_ | _, t⟩
    · have hab := wp_aborts hwp hex
      exact ⟨ms, table, hl, hab.strays, hab.runs⟩
    · obtain ⟨-, hq'⟩ := wp_returns hwp hex
      exact ⟨ms, table, hl, hq'.coherent.strays, _, hq'.coherent.runs⟩

/-! A round with one measurement on two clients, which succeeds in five turns. -/

def twoClients : Round where
  clientFile := bytes "m 10.0.0.1 9051 pw\nn 10.0.0.2 9051 pw\n"
  lines := ["1 AA 30 m,n 100,50 2,1".toList]
  base := .empty
  openFds := [0, 1, 2]
  rank _ := 0
  os := {
    tick := 0
    out := []
    script := fun tick => {
      rank := fun _ => 0
      now := .zero
      time := some default
      socket := some 3
      resolved := true
      connected := true
      sent := some 1
      recv := some (if tick = 13 ∨ tick = 14 then bytes "250 SPEEDTESTING"
        else if tick = 28 ∨ tick = 29 then bytes "650 SPEEDTESTING END\r\n" else bytes "250 OK")
      stale := fun _ => 0
      ready := some [3, 4] } }

def twoClientsSchedule : List Measurement :=
  [⟨1, "AA".toList, 30, .waiting, [⟨"m".toList, 100, 2⟩, ⟨"n".toList, 50, 1⟩], [], [], 0⟩]

theorem parseLines_twoClients : parseLines twoClients.lines = .ok twoClientsSchedule := rfl

theorem twoClientsSchedule_nulFree : ∀ m ∈ twoClientsSchedule, m.NulFree := by
  simp only [twoClientsSchedule, List.forall_mem_singleton, Measurement.NulFree]
  decide

def twoClientsStart : Loop where
  os := twoClients.os
  co := {
    metas := [
      ⟨-1, .invalid, bytes "m", bytes "10.0.0.1", bytes "9051", some (bytes "pw"), false, 0⟩,
      ⟨-1, .invalid, bytes "n", bytes "10.0.0.2", bytes "9051", some (bytes "pw"), false, 0⟩]
    openFds := [0, 1, 2]
    msms := ⟨twoClientsSchedule, by decide⟩
    known := []
    loopsWithoutProgress := 0
    countSuccess := 0
    countFailure := 0
    strays := []
    trace := [] }

/-- The state after `n` turns. -/
def Loop.after (s : Loop) : ℕ → Loop
  | 0 => s
  | n + 1 => (exec mainLoopTurn (s.after n)).2

theorem AtHead.after (h : AtHead r s) {n : ℕ} (hn : ∀ i < n,
    schedFinished (s.after i).co.msms = false ∧ (exec mainLoopTurn (s.after i)).1 = .ok true) :
    AtHead r (s.after n) := by
  induction n with
  | zero => exact h
  | succ n ih =>
    obtain ⟨hfin, hok⟩ := hn n (Nat.lt_succ_self n)
    exact (ih fun i hi => hn i (Nat.lt_succ_of_lt hi)).turn ⟨hfin, Prod.ext hok rfl⟩

/-- A round has one run. -/
theorem AtHead.eq_after (h : AtHead r t) (hs : r.start = .ok (some s)) :
    ∃ n, t = s.after n ∧ ∀ i < n, schedFinished (s.after i).co.msms = false := by
  induction h with
  | first _ hs' | again _ _ _ hs' _ =>
    obtain rfl := Option.some.inj (Except.ok.inj (hs'.symm.trans hs))
    exact ⟨0, rfl, fun i hi => absurd hi (Nat.not_lt_zero i)⟩
  | @turn _ u t _ hstep ih =>
    obtain ⟨n, rfl, hn⟩ := ih hs
    refine ⟨n + 1, (congrArg Prod.snd hstep.2).symm, fun i hi => ?_⟩
    rcases Nat.lt_succ_iff_lt_or_eq.mp hi with hi | rfl
    · exact hn i hi
    · exact hstep.1

theorem twoClients_atHead {n : ℕ} (hn : n ≤ 5) : AtHead twoClients (twoClientsStart.after n) := by
  have hturns : ∀ i < 5, schedFinished (twoClientsStart.after i).co.msms = false ∧
      (exec mainLoopTurn (twoClientsStart.after i)).1 = .ok true := by
    decide +kernel
  exact (AtHead.first rfl rfl).after fun i hi => hturns i (Nat.lt_of_lt_of_le hi hn)

end
end Flashflow
