import Flashflow.Sched.Steps

/-! Runs of the scheduler: every interleaving of `sched_next` and `sched_mark_done`. Dependencies
are respected in all of them; which schedules get stuck and which can finish is decided by the
depends relation and the durations. -/
namespace Flashflow.Sched
open Outcome Iteration Dependency LabelledRun

inductive SchedEvent where
  | returned (id : UInt32)
  | markedDone (id : UInt32)
  deriving DecidableEq, Repr

/-- A call of `sched_next`, with any iteration order and clock, or a call of `sched_mark_done` on
an id that is in progress. A panic ends the process, so it is no step. -/
inductive SchedStep : Msms → SchedEvent → Msms → Prop
  | next {s s' : Msms} {r : UInt32} (rank : UInt32 → ℕ) (now : EpochSecs)
      (h : schedNext rank now s = .ok (r, s')) : SchedStep s (.returned r) s'
  | done {s s' : Msms} {id : UInt32} (hid : s.stateOf id = some .inProgress)
      (h : schedMarkDone id s = .ok s') : SchedStep s (.markedDone id) s'

abbrev SchedRun : Msms → List SchedEvent → Msms → Prop := Run SchedStep

abbrev SchedReaches : Msms → Msms → Prop := Reaches SchedStep

/-- No measurement depends on itself through a chain of depends. -/
def DependsAcyclic (ms : List Measurement) : Prop := ∀ i, ¬ Relation.TransGen (DependsOn ms) i i

section Simulation
variable {ms : List Measurement} {s s' : Msms} {c c' : Config UInt32} (ha : Accepted ms)
include ha

theorem sound_iff : (tasks ms ha).Sound ↔ DependsAcyclic ms ∧ ∀ m ∈ ms, m.Startable := by
  refine and_congr Iff.rfl ⟨fun h m hm => ?_, fun h i _ m hm _ => h m hm⟩
  exact h m.id (List.mem_toFinset.mpr (List.mem_map_of_mem hm)) m hm rfl

theorem Tracks.step (ht : Tracks ms s c) {e : SchedEvent} (hs : SchedStep s e s') :
    ∃ c', (tasks ms ha).Reaches c c' ∧ Tracks ms s' c' := by
  cases hs with
  | next rank now h =>
    rcases ht.next ha h with ⟨-, rfl, -⟩ | ⟨hr, ht'⟩
    · exact ⟨c, .refl, ht⟩
    · exact ⟨_, .single (.start hr), ht'⟩
  | done _ h =>
    obtain ⟨hid, hrun, ht'⟩ := ht.markDone h
    exact ⟨_, .single (.finish (List.mem_toFinset.mpr hid) hrun), ht'⟩

/-- Every run of the table is a run of the task system. -/
theorem Tracks.reaches (ht : Tracks ms s c) (hr : SchedReaches s s') :
    ∃ c', (tasks ms ha).Reaches c c' ∧ Tracks ms s' c' := by
  refine hr.invariant (I := fun s' => ∃ c', (tasks ms ha).Reaches c c' ∧ Tracks ms s' c')
    ⟨c, .refl, ht⟩ ?_
  rintro t e t' ⟨d, hd, htd⟩ hs
  obtain ⟨d', hd', ht'⟩ := htd.step ha hs
  exact ⟨d', hd.trans hd', ht'⟩

omit ha in
theorem Tracks.done_of_running (ht : Tracks ms s c) {i : UInt32} (hi : i ∈ ms.map Measurement.id)
    (hrun : c i = .running) : s.stateOf i = some .inProgress := by
  obtain ⟨m₀, hm₀, rfl⟩ := List.mem_map.mp hi
  obtain ⟨m, hget, -, hst, -⟩ := ht.loaded m₀ hm₀
  rw [Msms.stateOf, hget, Option.map_some, State.status_eq_running.mp (hst.trans hrun)]

/-- And every run of the task system is one of the table: the iteration order can pick any ready
measurement. -/
theorem Tracks.follow (ht : Tracks ms s c) (hr : (tasks ms ha).Reaches c c') :
    ∃ s', SchedReaches s s' ∧ Tracks ms s' c' := by
  induction hr with
  | refl => exact ⟨s, .refl s, ht⟩
  | tail _ hs ih =>
    obtain ⟨t, hst, htt⟩ := ih
    cases hs with
    | start hready =>
      obtain ⟨m, hm, rfl, hmr, hdur⟩ := htt.ready_of_able ha hready
      obtain ⟨rank, hrank⟩ := exists_rank_find? Measurement.id Measurement.ready
        (fun b hb hid => List.inj_on_of_nodup_map t.nodup hb hm hid) hm hmr
      let now : EpochSecs := .zero
      obtain ⟨stop, hstop⟩ := (failsafeStop_ok_iff now m.dur).mpr hdur
      have hnext : schedNext rank now t =
          .ok (m.id, t.update m.id (fun x => x.begin stop) fun x => x.begin_id stop) := by
        simp [schedNext, schedNextInternal, hrank, hstop]
      rcases htt.next ha hnext with ⟨-, -, hnone⟩ | ⟨-, ht'⟩
      · rw [hnone m hm] at hmr
        cases hmr
      · exact ⟨_, hst.tail (.next rank now hnext), ht'⟩
    | finish hi hrun =>
      have hst' := htt.done_of_running (List.mem_toFinset.mp hi) hrun
      obtain ⟨t', ht'⟩ := schedMarkDone_of_inProgress hst'
      exact ⟨t', hst.tail (.done hst' ht'), (htt.markDone ht').2.2⟩

theorem Tracks.finished_iff (ht : Tracks ms s c) :
    schedFinished s = true ↔ (tasks ms ha).Finished c := by
  rw [schedFinished_iff]
  constructor
  · intro h i hi
    obtain ⟨m₀, hm₀, rfl⟩ := List.mem_map.mp (List.mem_toFinset.mp hi)
    obtain ⟨m, hget, -, hst, -⟩ := ht.loaded m₀ hm₀
    exact hst ▸ State.status_eq_complete.mpr (h m (Msms.get?_eq_some_iff.mp hget).1)
  · intro h m hm
    by_contra hst
    obtain ⟨m₀, hm₀, -, -, hst', -⟩ := ht.origin hm hst
    rw [h m₀.id (List.mem_toFinset.mpr (List.mem_map_of_mem hm₀))] at hst'
    exact hst (State.status_eq_complete.mp hst')

/-- The two notions of a finishing run agree. -/
theorem Tracks.finishable_iff (ht : Tracks ms s c) :
    (∃ s', SchedReaches s s' ∧ schedFinished s' = true) ↔
      ∃ c', (tasks ms ha).Reaches c c' ∧ (tasks ms ha).Finished c' := by
  constructor
  · rintro ⟨s', hr, hf⟩
    obtain ⟨c', hc', ht'⟩ := ht.reaches ha hr
    exact ⟨c', hc', (ht'.finished_iff ha).mp hf⟩
  · rintro ⟨c', hc', hf⟩
    obtain ⟨s', hr, ht'⟩ := ht.follow ha hc'
    exact ⟨s', hr, (ht'.finished_iff ha).mpr hf⟩

end Simulation

/-! Dependency safety. -/

/-- What is known of a run and its history: the completed tasks have been marked done, and an id
that has been returned is no longer waiting. -/
structure History (ms : List Measurement) (ha : Accepted ms) (evs : List SchedEvent) (s : Msms)
    (c : Config UInt32) : Prop where
  tracks : Tracks ms s c
  safe : (tasks ms ha).Safe c
  marked : ∀ i, c i = .complete → .markedDone i ∈ evs
  started : ∀ i, i ≠ 0 → .returned i ∈ evs → c i ≠ .waiting
  once : ∀ i, i ≠ 0 → evs.count (.returned i) ≤ 1

theorem History.step {ms : List Measurement} {ha : Accepted ms} {evs : List SchedEvent}
    {s s' : Msms} {c : Config UInt32} {e : SchedEvent} (h : History ms ha evs s c)
    (hs : SchedStep s e s') : ∃ c', History ms ha (evs ++ [e]) s' c' := by
  cases hs with
  | next rank now hn =>
    rename_i r
    have hcount (i : UInt32) (hi : i ≠ r) :
        (evs ++ [SchedEvent.returned r]).count (.returned i) = evs.count (.returned i) := by
      simp [List.count_append, hi.symm]
    rcases h.tracks.next ha hn with ⟨rfl, rfl, -⟩ | ⟨hr, ht⟩
    · refine ⟨c, h.tracks, h.safe, fun i hi => by simp [h.marked i hi], fun i hi hev => ?_,
        fun i hi => (hcount i hi).trans_le (h.once i hi)⟩
      exact h.started i hi (by simpa [hi] using hev)
    · refine ⟨_, ht, h.safe.step (.start hr), fun i hi => ?_, fun i hi hev => ?_, fun i hi => ?_⟩
      · by_cases hir : i = r
        · subst hir; simp at hi
        · rw [Function.update_of_ne hir] at hi
          simp [h.marked i hi]
      · by_cases hir : i = r
        · subst hir; simp
        · rw [Function.update_of_ne hir]
          exact h.started i hi (by simpa [hir] using hev)
      · by_cases hir : i = r
        · subst hir
          have hnot : SchedEvent.returned i ∉ evs := fun hev => h.started i hi hev hr.2.1
          simp [List.count_append, List.count_eq_zero_of_not_mem hnot]
        · exact (hcount i hir).trans_le (h.once i hi)
  | done hip hd =>
    rename_i id
    obtain ⟨hid, hrun, ht⟩ := h.tracks.markDone hd
    refine ⟨_, ht, h.safe.step (.finish (List.mem_toFinset.mpr hid) hrun), fun i hi => ?_,
      fun i hi hev => ?_, fun i hi => ?_⟩
    · by_cases hii : i = id
      · subst hii; simp
      · rw [Function.update_of_ne hii] at hi
        simp [h.marked i hi]
    · by_cases hii : i = id
      · subst hii; simp
      · rw [Function.update_of_ne hii]
        exact h.started i hi (by simpa using hev)
    · simpa [List.count_append] using h.once i hi

theorem history_of_run {base s₀ s : Msms} {ms : List Measurement} {evs : List SchedEvent}
    (ha : Accepted ms) (hbase : schedFinished base = true) (hfresh : ∀ m ∈ ms, m.Fresh)
    (hload : s₀ = ms.foldl Msms.insert base) (hrun : SchedRun s₀ evs s) :
    ∃ c, History ms ha evs s c := by
  subst hload
  refine hrun.invariant (I := fun evs s => ∃ c, History ms ha evs s c) ?_ ?_
  · exact ⟨Tasks.initial, .start ha hbase hfresh, Tasks.safe_initial, (fun _ h => nomatch h),
      fun _ _ h => absurd h List.not_mem_nil, fun _ _ => Nat.zero_le 1⟩
  · rintro evs s e s' ⟨c, h⟩ hs
    exact h.step hs

/-- An id is returned in a state in which its task may start. -/
theorem SchedRun.returned_ready {base s₀ s : Msms} {ms : List Measurement} {evs : List SchedEvent}
    (ha : Accepted ms) (hbase : schedFinished base = true) (hfresh : ∀ m ∈ ms, m.Fresh)
    (hload : s₀ = ms.foldl Msms.insert base) (hrun : SchedRun s₀ evs s) {pre post : List SchedEvent}
    {id : UInt32} (hevs : evs = pre ++ .returned id :: post) (hid : id ≠ 0) :
    ∃ t c, History ms ha pre t c ∧ (tasks ms ha).Ready c id := by
  subst hevs
  obtain ⟨t, t', ht, hs⟩ := hrun.at_event
  obtain ⟨c, hc⟩ := history_of_run ha hbase hfresh hload ht
  refine ⟨t, c, hc, ?_⟩
  cases hs with
  | next rank now hn =>
    rcases hc.tracks.next ha hn with ⟨h0, -⟩ | ⟨hr, -⟩
    · exact absurd h0 hid
    · exact hr

/-- No call adds an entry. -/
theorem SchedStep.get?_none {s s' : Msms} {e : SchedEvent} {id : UInt32} (hs : SchedStep s e s')
    (h : s.get? id = none) : s'.get? id = none := by
  have hmap {old new : State} {i : UInt32} (hm : Moves s s' i old new) : s'.get? id = none := by
    simpa [h] using hm.plans id
  cases hs with
  | next rank now hn =>
    rcases schedNext_ok hn with ⟨-, rfl, -⟩ | ⟨_, _, _, _, _, rfl⟩
    · exact h
    · simp [Msms.get?_update, h]
  | done _ hd => exact hmap (schedMarkDone_moves hd)

/-- Dependency safety: an id is returned at most once, only after everything it depends on has
been marked done, and no measurement is ahead of its depends. `base` is what earlier, finished
schedules left in the table; its entries are not part of this schedule. -/
theorem dependency_safety {base s₀ s : Msms} {ms : List Measurement} {evs : List SchedEvent}
    (hbase : schedFinished base = true) (hfresh : ∀ m ∈ ms, m.Fresh)
    (hload : checkAndInsertMeasurements base ms = .ok s₀) (hrun : SchedRun s₀ evs s) :
    (∀ id, id ≠ 0 → evs.count (.returned id) ≤ 1) ∧
    (∀ pre post id, evs = pre ++ .returned id :: post → id ≠ 0 →
      ∃ m ∈ ms, m.id = id ∧ ∀ d ∈ m.depends, .markedDone d ∈ pre) ∧
    (∀ m ∈ s.entries, (base.get? m.id = none ∨ ∃ m₀ ∈ ms, m₀.id = m.id) → m.state ≠ .waiting →
      ∀ d ∈ m.depends, s.stateOf d = some .complete) := by
  obtain ⟨ha, hs₀⟩ := checkAndInsert_ok hload
  obtain ⟨c, h⟩ := history_of_run ha hbase hfresh hs₀ hrun
  refine ⟨h.once, ?_, ?_⟩
  · intro pre post id hevs hid
    obtain ⟨t, d, hd, hr⟩ := hrun.returned_ready ha hbase hfresh hs₀ hevs hid
    obtain ⟨m, hm, rfl⟩ := List.mem_map.mp (List.mem_toFinset.mp hr.1)
    exact ⟨m, hm, rfl, fun j hj => hd.marked j (hr.2.2.2 j ⟨m, hm, rfl, hj⟩)⟩
  · intro m hm hown hst d hd
    have hget := Msms.get?_eq_some_iff.mpr ⟨hm, rfl⟩
    obtain ⟨m₀, hm₀, hid⟩ : ∃ m₀ ∈ ms, m₀.id = m.id := by
      rcases hown with hnone | h
      · by_contra hno
        have h₀ : s₀.get? m.id = none := by
          rw [hs₀, loaded_other ha base (by simpa using hno), hnone]
        have hs : s.get? m.id = none :=
          hrun.invariant (I := fun _ t => t.get? m.id = none) h₀ fun h hs => hs.get?_none h
        rw [hget] at hs
        cases hs
      · exact h
    obtain ⟨m', hget', hplan, hstat, -⟩ := h.tracks.loaded m₀ hm₀
    obtain rfl : m' = m := by rw [hid, hget] at hget'; exact (Option.some.inj hget').symm
    have hnw : c m₀.id ≠ .waiting := fun hw => hst (State.status_eq_waiting.mp (hstat.trans hw))
    have hdm : d ∈ m₀.depends := depends_of_plan hplan ▸ hd
    have hcd := (h.safe m₀.id hnw).2 d ⟨m₀, hm₀, rfl, hdm⟩
    obtain ⟨m₁, hm₁, rfl⟩ := List.mem_map.mp (ha.depends_loaded m₀ hm₀ d hdm)
    obtain ⟨x, hx, -, hxst, -⟩ := h.tracks.loaded m₁ hm₁
    rw [Msms.stateOf, hx, Option.map_some, State.status_eq_complete.mp (hxst.trans hcd)]

/-- Two measurements, the second waiting for the first. -/
def chainSchedule : List Measurement :=
  [⟨1, "AA".toList, 30, .waiting, [⟨"m".toList, 1, 1⟩], [], [], 0⟩,
   ⟨2, "BB".toList, 30, .waiting, [⟨"m".toList, 1, 1⟩], [1], [], 0⟩]

theorem chainSchedule_fresh : ∀ m ∈ chainSchedule, m.Fresh := by
  simp only [chainSchedule, List.forall_mem_cons]
  exact ⟨⟨by decide, rfl, rfl⟩, ⟨by decide, rfl, rfl⟩, fun _ h => absurd h List.not_mem_nil⟩

theorem dependency_safety_chain : ∃ s₀ s,
    checkAndInsertMeasurements .empty chainSchedule = .ok s₀ ∧
    SchedRun s₀ [.returned 1, .markedDone 1, .returned 2] s ∧
    (∃ m ∈ chainSchedule, m.id = 2 ∧
      ∀ d ∈ m.depends, SchedEvent.markedDone d ∈ [.returned 1, .markedDone 1]) := by
  let s₀ := chainSchedule.foldl Msms.insert .empty
  let s₁ := s₀.update 1 (fun x => x.begin 45) fun x => x.begin_id 45
  let s₂ := (s₁.update 1 Measurement.complete Measurement.complete_id).noteDone 1
  let s₃ := s₂.update 2 (fun x => x.begin 45) fun x => x.begin_id 45
  have h₁ : SchedStep s₀ (.returned 1) s₁ := .next (fun _ => 0) ⟨0, by decide⟩ rfl
  have h₂ : SchedStep s₁ (.markedDone 1) s₂ := .done rfl rfl
  have h₃ : SchedStep s₂ (.returned 2) s₃ := .next (fun _ => 0) ⟨0, by decide⟩ rfl
  have hrun := ((Run.nil.snoc h₁).snoc h₂).snoc h₃
  have hbase : schedFinished .empty = true := rfl
  exact ⟨_, _, rfl, hrun, (dependency_safety hbase chainSchedule_fresh rfl hrun).2.1
    [.returned 1, .markedDone 1] [] 2 rfl (by decide)⟩

end Flashflow.Sched
