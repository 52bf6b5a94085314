import Flashflow.Sched.Schedule

/-! Which schedules can finish. The validation of a schedule looks at ids one by one, so a cycle of
several measurements, a repeated dependency, or a duration whose failsafe time leaves `u32` is
accepted; each of them keeps the schedule from finishing. -/
namespace Flashflow.Sched
open Outcome Iteration Dependency LabelledRun

/-- Some measurement is in progress, or `sched_next` hands one out whatever the iteration order
and the clock. -/
def Progress (s : Msms) : Prop :=
  (∃ m ∈ s.entries, m.state = .inProgress) ∨
    ∀ rank now, ∃ id s', id ≠ 0 ∧ schedNext rank now s = .ok (id, s')

section Simulation
variable {ms : List Measurement} {s s' : Msms} {c : Config UInt32} (ha : Accepted ms)
include ha

theorem Tracks.progress_of_sound (ht : Tracks ms s c) (hfresh : ∀ m ∈ ms, m.Fresh)
    (hsound : (tasks ms ha).Sound) (hf : schedFinished s = false) : Progress s := by
  by_cases hrun : ∃ m ∈ s.entries, m.state = .inProgress
  · exact .inl hrun
  refine .inr fun rank now => ?_
  have hnf : ¬ (tasks ms ha).Finished c := fun h => by
    rw [(ht.finished_iff ha).mpr h] at hf
    cases hf
  have hnr : ∀ i ∈ (tasks ms ha).nodes, c i ≠ .running := fun i hi hri => by
    obtain ⟨m, hget, hst⟩ := Option.map_eq_some_iff.mp
      (ht.done_of_running (List.mem_toFinset.mp hi) hri)
    exact hrun ⟨m, (Msms.get?_eq_some_iff.mp hget).1, hst⟩
  obtain ⟨i, hi⟩ := hsound.exists_ready hnf hnr
  obtain ⟨m, hm, -, hmr, -⟩ := ht.ready_of_able ha hi
  cases hn : schedNext rank now s with
  | error e =>
    obtain ⟨-, x, hx, hxr, hdur⟩ := schedNext_error hn
    have hw : x.state = .waiting := (by simpa [Measurement.ready] using hxr : _ ∧ _).1
    obtain ⟨x₀, hx₀, -, hplan, -⟩ := ht.origin hx (by simp [hw])
    exact absurd (dur_of_plan hplan ▸ (((sound_iff ha).mp hsound).2 x₀ hx₀).2) hdur
  | ok r =>
    obtain ⟨id, s'⟩ := r
    rcases schedNext_ok hn with ⟨-, -, hnone⟩ | ⟨x, -, hget, hxr, -⟩
    · rw [hnone m hm] at hmr
      cases hmr
    · obtain ⟨hx, rfl⟩ := Msms.get?_eq_some_iff.mp hget
      have hw : x.state = .waiting := (by simpa [Measurement.ready] using hxr : _ ∧ _).1
      obtain ⟨x₀, hx₀, hid, -⟩ := ht.origin hx (by simp [hw])
      exact ⟨x.id, s', hid ▸ (hfresh x₀ hx₀).id_ne_zero, rfl⟩

theorem Tracks.stuck (ht : Tracks ms s c) (h : (tasks ms ha).Stuck c) :
    schedFinished s = false ∧ ¬ Progress s := by
  obtain ⟨hf, hrun, hready⟩ := h
  refine ⟨Bool.eq_false_iff.mpr fun h => hf ((ht.finished_iff ha).mp h), ?_⟩
  rintro (⟨m, hm, hst⟩ | hnext)
  · obtain ⟨m₀, hm₀, -, -, hstat, -⟩ := ht.origin hm (by simp [hst])
    rw [hst] at hstat
    exact hrun m₀.id (List.mem_toFinset.mpr (List.mem_map_of_mem hm₀)) hstat.symm
  · obtain ⟨id, s', hid, hn⟩ := hnext (fun _ => 0) ⟨0, by decide⟩
    rcases ht.next ha hn with ⟨h0, -⟩ | ⟨hr, -⟩
    · exact hid h0
    · exact hready id hr

/-- A loaded schedule never gets stuck exactly when its task system is sound. -/
theorem Tracks.never_stuck_iff (ht : Tracks ms s Tasks.initial) (hfresh : ∀ m ∈ ms, m.Fresh) :
    (∀ s', SchedReaches s s' → schedFinished s' = false → Progress s') ↔ (tasks ms ha).Sound := by
  constructor
  · intro h
    refine Tasks.sound_iff_never_stuck.mpr fun c hc hstuck => ?_
    obtain ⟨s', hr, ht'⟩ := ht.follow ha hc
    obtain ⟨hf, hp⟩ := ht'.stuck ha hstuck
    exact hp (h s' hr hf)
  · intro h s' hr hf
    obtain ⟨c, -, ht'⟩ := ht.reaches ha hr
    exact ht'.progress_of_sound ha hfresh h hf

end Simulation

/-- A schedule file that is accepted never gets stuck exactly when no measurement depends on
itself through others, no depends list repeats an id, and `3 * dur` fits in `u32` throughout. -/
theorem accepted_never_stuck_iff {rank : UInt32 → ℕ} {base s₀ : Msms} {lines : List Text} {n : ℕ}
    {ms : List Measurement} (hbase : schedFinished base = true)
    (hms : parseLines lines = .ok ms) (hnew : schedNew rank base lines = .ok (s₀, n)) :
    (∀ s, SchedReaches s₀ s → schedFinished s = false → Progress s) ↔
      DependsAcyclic ms ∧ ∀ m ∈ ms, m.depends.Nodup ∧ 3 * m.dur.toNat < 2 ^ 32 := by
  obtain ⟨ms', hms', hload, -⟩ := schedNew_ok hnew
  obtain rfl : ms' = ms := by rw [hms'] at hms; exact Except.ok.inj hms
  obtain ⟨ha, rfl⟩ := checkAndInsert_ok hload
  have hfresh := parseLines_fresh hms
  rw [(Tracks.start ha hbase hfresh).never_stuck_iff ha hfresh, sound_iff]
  rfl

/-- Three lines, of which the last two wait for each other. -/
def cyclicLines : List Text :=
  ["1 AA 30 m 1 1 0".toList, "2 BB 30 m 1 1 3".toList, "3 CC 30 m 1 1 2".toList]

def cyclicSchedule : List Measurement :=
  [⟨1, "AA".toList, 30, .waiting, [⟨"m".toList, 1, 1⟩], [], [], 0⟩,
   ⟨2, "BB".toList, 30, .waiting, [⟨"m".toList, 1, 1⟩], [3], [], 0⟩,
   ⟨3, "CC".toList, 30, .waiting, [⟨"m".toList, 1, 1⟩], [2], [], 0⟩]

theorem parseLines_cyclic : parseLines cyclicLines = .ok cyclicSchedule := rfl

theorem schedNew_cyclic : schedNew (fun _ => 0) .empty cyclicLines =
    .ok (cyclicSchedule.foldl Msms.insert .empty, 3) := rfl

/-- The cycle is accepted, and after the first measurement nothing can be started any more. -/
theorem cyclic_gets_stuck : ∃ s₀ s, schedNew (fun _ => 0) .empty cyclicLines = .ok (s₀, 3) ∧
    SchedReaches s₀ s ∧ schedFinished s = false ∧ ¬ Progress s := by
  let s₀ := cyclicSchedule.foldl Msms.insert .empty
  let s₁ := s₀.update 1 (fun x => x.begin 45) fun x => x.begin_id 45
  let s₂ := (s₁.update 1 Measurement.complete Measurement.complete_id).noteDone 1
  have h₁ : SchedStep s₀ (.returned 1) s₁ := .next (fun _ => 0) ⟨0, by decide⟩ rfl
  have h₂ : SchedStep s₁ (.markedDone 1) s₂ := .done rfl rfl
  refine ⟨s₀, s₂, schedNew_cyclic, ((Reaches.refl _).tail h₁).tail h₂, rfl, ?_⟩
  rintro (⟨m, hm, hst⟩ | hnext)
  · revert m
    decide
  · obtain ⟨id, s', hid, hn⟩ := hnext (fun _ => 0) ⟨0, by decide⟩
    have hnone : schedNext (fun _ => 0) ⟨0, by decide⟩ s₂ = .ok (0, s₂) := rfl
    rw [hnone] at hn
    exact hid (congrArg Prod.fst (Except.ok.inj hn)).symm

theorem accepted_never_stuck_cyclic :
    (∀ s, SchedReaches (cyclicSchedule.foldl Msms.insert .empty) s → schedFinished s = false →
      Progress s) ↔ DependsAcyclic cyclicSchedule ∧
        ∀ m ∈ cyclicSchedule, m.depends.Nodup ∧ 3 * m.dur.toNat < 2 ^ 32 :=
  accepted_never_stuck_iff (rfl : schedFinished .empty = true) parseLines_cyclic schedNew_cyclic

/-- Whether a loaded schedule can be run to the end, and from everywhere. -/
theorem finishable_iff {ms : List Measurement} {base : Msms} (ha : Accepted ms)
    (hbase : schedFinished base = true) (hfresh : ∀ m ∈ ms, m.Fresh) :
    (∃ s, SchedReaches (ms.foldl Msms.insert base) s ∧ schedFinished s = true) ↔
      DependsAcyclic ms ∧ ∀ m ∈ ms, m.Startable := by
  rw [(Tracks.start ha hbase hfresh).finishable_iff ha, ← Tasks.sound_iff_finishable, sound_iff]

theorem finishes_from_everywhere {ms : List Measurement} {base s : Msms} (ha : Accepted ms)
    (hbase : schedFinished base = true) (hfresh : ∀ m ∈ ms, m.Fresh)
    (hsound : DependsAcyclic ms ∧ ∀ m ∈ ms, m.Startable)
    (hr : SchedReaches (ms.foldl Msms.insert base) s) :
    ∃ s', SchedReaches s s' ∧ schedFinished s' = true := by
  obtain ⟨c, -, ht⟩ := (Tracks.start ha hbase hfresh).reaches ha hr
  exact (ht.finishable_iff ha).mpr (((sound_iff ha).mpr hsound).finishes c)

/-- Acyclic schedules without repeated dependencies are exactly the ones that can finish, and
cannot be led astray, provided that the failsafe time of each measurement can be computed. -/
theorem finishes_exactly_iff {ms : List Measurement} {s₀ : Msms} (hfresh : ∀ m ∈ ms, m.Fresh)
    (hload : checkAndInsertMeasurements .empty ms = .ok s₀) :
    (((∃ s, SchedReaches s₀ s ∧ schedFinished s = true) ↔
        DependsAcyclic ms ∧ ∀ m ∈ ms, m.depends.Nodup) ∧
      (DependsAcyclic ms ∧ (∀ m ∈ ms, m.depends.Nodup) →
        ∀ s, SchedReaches s₀ s → ∃ s', SchedReaches s s' ∧ schedFinished s' = true)) ↔
    (DependsAcyclic ms ∧ (∀ m ∈ ms, m.depends.Nodup) → ∀ m ∈ ms, 3 * m.dur.toNat < 2 ^ 32) := by
  obtain ⟨ha, rfl⟩ := checkAndInsert_ok hload
  have hbase : schedFinished .empty = true := rfl
  have hiff := finishable_iff ha hbase hfresh
  constructor
  · rintro ⟨h, -⟩ hok m hm
    exact ((hiff.mp (h.mpr hok)).2 m hm).2
  · intro hdur
    have hsound (hok : DependsAcyclic ms ∧ ∀ m ∈ ms, m.depends.Nodup) :
        DependsAcyclic ms ∧ ∀ m ∈ ms, m.Startable :=
      ⟨hok.1, fun m hm => ⟨hok.2 m hm, hdur hok m hm⟩⟩
    refine ⟨⟨fun h => ?_, fun hok => hiff.mpr (hsound hok)⟩, fun hok s hr =>
      finishes_from_everywhere ha hbase hfresh (hsound hok) hr⟩
    obtain ⟨hac, hst⟩ := hiff.mp h
    exact ⟨hac, fun m hm => (hst m hm).1⟩

/-- One measurement whose failsafe time leaves `u32`. -/
def longSchedule : List Measurement :=
  [⟨1, "AA".toList, 2147483648, .waiting, [⟨"m".toList, 1, 1⟩], [], [], 0⟩]

theorem longSchedule_fresh : ∀ m ∈ longSchedule, m.Fresh := by
  simp only [longSchedule, List.forall_mem_cons]
  exact ⟨⟨by decide, rfl, rfl⟩, fun _ h => absurd h List.not_mem_nil⟩

theorem longSchedule_acyclic : DependsAcyclic longSchedule := by
  intro i hi
  obtain ⟨j, ⟨m, hm, -, hj⟩, -⟩ := Relation.TransGen.head'_iff.mp hi
  simp only [longSchedule, List.mem_singleton] at hm
  subst hm
  exact List.not_mem_nil hj

/-- It has no cycle and no repeated dependency, and cannot finish. -/
theorem longSchedule_unfinishable : ∃ s₀,
    checkAndInsertMeasurements .empty longSchedule = .ok s₀ ∧ DependsAcyclic longSchedule ∧
    (∀ m ∈ longSchedule, m.depends.Nodup) ∧
    ¬ ∃ s, SchedReaches s₀ s ∧ schedFinished s = true := by
  have hload : checkAndInsertMeasurements .empty longSchedule =
      .ok (longSchedule.foldl Msms.insert .empty) := rfl
  obtain ⟨ha, -⟩ := checkAndInsert_ok hload
  have hbase : schedFinished .empty = true := rfl
  refine ⟨_, rfl, longSchedule_acyclic, by decide, fun h => ?_⟩
  have hst := ((finishable_iff ha hbase longSchedule_fresh).mp h).2
  have hlt := (hst _ (List.mem_singleton.mpr rfl)).2
  revert hlt
  decide

theorem finishes_exactly_chain : ∃ s₀, checkAndInsertMeasurements .empty chainSchedule = .ok s₀ ∧
    ∃ s, SchedReaches s₀ s ∧ schedFinished s = true := by
  have hacyc : DependsAcyclic chainSchedule := by
    have hdep (i j : UInt32) (h : DependsOn chainSchedule i j) : i = 2 ∧ j = 1 := by
      obtain ⟨m, hm, rfl, hj⟩ := h
      simp only [chainSchedule, List.mem_cons, List.not_mem_nil, or_false] at hm
      rcases hm with rfl | rfl
      · exact absurd hj List.not_mem_nil
      · exact ⟨rfl, List.mem_singleton.mp hj⟩
    intro i hi
    obtain ⟨j, hij, hji⟩ := Relation.TransGen.head'_iff.mp hi
    obtain ⟨k, -, hk⟩ := Relation.TransGen.tail'_iff.mp hi
    rw [(hdep i j hij).1] at hk
    exact absurd (hdep k 2 hk).2 (by decide)
  have h := (finishes_exactly_iff chainSchedule_fresh rfl).mpr fun _ => by decide
  exact ⟨_, rfl, h.1.mpr ⟨hacyc, by decide⟩⟩

end Flashflow.Sched
