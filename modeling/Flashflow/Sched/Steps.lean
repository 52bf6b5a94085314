import Mathlib.Data.List.Perm.Subperm
import Flashflow.Library.Run
import Flashflow.Library.Dependency
import Flashflow.Sched.Msms

/-! What each scheduler call does to the table, and the simulation of the table by a task system
that waits for the contents of `depends` instead of comparing lengths. -/
namespace Flashflow.Sched
open Outcome Iteration Dependency LabelledRun

/-! Spec lemmas of the calls. -/

theorem schedNext_ok {rank : UInt32 → ℕ} {now : EpochSecs} {s s' : Msms} {r : UInt32}
    (h : schedNext rank now s = .ok (r, s')) :
    (r = 0 ∧ s' = s ∧ ∀ m ∈ s.entries, m.ready = false) ∨
    ∃ m stop, s.get? r = some m ∧ m.ready = true ∧ failsafeStop now m.dur = .ok stop ∧
      s' = s.update r (fun x => x.begin stop) (fun x => x.begin_id stop) := by
  unfold schedNext schedNextInternal at h
  split at h
  next hnone =>
    obtain ⟨rfl, rfl⟩ : 0 = r ∧ s = s' := by simpa using h
    exact .inl ⟨rfl, rfl, find?_ranked_eq_none.mp hnone⟩
  next m hsome =>
    simp only [↓reduceIte, bind_eq_ok, pure_eq_ok, Prod.mk.injEq] at h
    obtain ⟨stop, hstop, rfl, rfl⟩ := h
    obtain ⟨hm, hr⟩ := find?_ranked_some hsome
    exact .inr ⟨m, stop, Msms.get?_eq_some_iff.mpr ⟨hm, rfl⟩, hr, hstop, rfl⟩

theorem schedNext_error {rank : UInt32 → ℕ} {now : EpochSecs} {s : Msms} {e : Panic}
    (h : schedNext rank now s = .error e) :
    e = .overflow ∧ ∃ m ∈ s.entries, m.ready = true ∧ ¬ 3 * m.dur.toNat < 2 ^ 32 := by
  unfold schedNext schedNextInternal at h
  split at h
  · cases h
  next m hsome =>
    simp only [↓reduceIte, bind_eq_error] at h
    rcases h with h | ⟨stop, -, h⟩
    · obtain ⟨he, hlt⟩ := failsafeStop_error h
      exact ⟨he, m, (find?_ranked_some hsome).1, (find?_ranked_some hsome).2, hlt⟩
    · cases h

theorem schedMarkDone_ok {id : UInt32} {s s' : Msms} (h : schedMarkDone id s = .ok s') :
    ∃ m, s.get? id = some m ∧ m.state = .inProgress ∧
      s' = (s.update id Measurement.complete Measurement.complete_id).noteDone id := by
  unfold schedMarkDone at h
  split at h
  · cases h
  next m hm =>
    simp only [bind_eq_ok, failIf_eq_ok, pure_eq_ok, not_not] at h
    obtain ⟨-, hst, rfl⟩ := h
    exact ⟨m, hm, hst, rfl⟩

theorem schedMarkDone_of_inProgress {id : UInt32} {s : Msms}
    (h : s.stateOf id = some .inProgress) : ∃ s', schedMarkDone id s = .ok s' := by
  obtain ⟨m, hm, hst⟩ := Option.map_eq_some_iff.mp h
  exact ⟨_, by simp only [schedMarkDone, hm, bind_eq_ok, failIf_eq_ok, pure_eq_ok, not_not]
               exact ⟨(), hst, rfl⟩⟩

/-- The measurement as it was when it was loaded. -/
@[simps] def Measurement.plan (m : Measurement) : Measurement :=
  { m with state := .waiting, finishedDepends := [], failsafeStop := 0 }

@[simp] theorem Measurement.plan_noteDone (id : UInt32) (m : Measurement) :
    (m.noteDone id).plan = m.plan := by
  unfold noteDone
  split <;> rfl

/-- One measurement goes from `old` to `new`; the plans and all other states are as before. -/
structure Moves (s s' : Msms) (id : UInt32) (old new : State) : Prop where
  before : s.stateOf id = some old
  states : ∀ i, s'.stateOf i = if i = id then some new else s.stateOf i
  plans : ∀ i, (s'.get? i).map Measurement.plan = (s.get? i).map Measurement.plan

theorem Moves.of_update {s : Msms} {id : UInt32} {old new : State} {f : Measurement → Measurement}
    {hf : ∀ m, (f m).id = m.id} (hold : s.stateOf id = some old) (hnew : ∀ m, (f m).state = new)
    (hplan : ∀ m, (f m).plan = m.plan) : Moves s (s.update id f hf) id old new := by
  refine ⟨hold, fun i => ?_, fun i => ?_⟩
  · rw [Msms.stateOf, Msms.get?_update]
    by_cases hi : i = id
    · subst hi
      obtain ⟨m, hm, -⟩ := Option.map_eq_some_iff.mp hold
      simp [hm, hnew]
    · simp [hi, Msms.stateOf]
  · rw [Msms.get?_update]
    by_cases hi : i = id
    · subst hi
      cases s.get? i <;> simp [hplan]
    · simp [hi]

/-- A call of `sched_next` that returns an id moves that measurement from `Waiting` to
`InProgress`. -/
theorem schedNext_moves {rank : UInt32 → ℕ} {now : EpochSecs} {s s' : Msms} {r : UInt32}
    (h : schedNext rank now s = .ok (r, s')) (hr : r ≠ 0) : Moves s s' r .waiting .inProgress := by
  rcases schedNext_ok h with ⟨h0, -⟩ | ⟨m, stop, hm, hready, -, rfl⟩
  · exact absurd h0 hr
  · have hw : m.state = .waiting := (by simpa [Measurement.ready] using hready : _ ∧ _).1
    exact Moves.of_update (by simp [Msms.stateOf, hm, hw]) (fun _ => rfl) fun _ => rfl

theorem schedMarkDone_moves {id : UInt32} {s s' : Msms} (h : schedMarkDone id s = .ok s') :
    Moves s s' id .inProgress .complete := by
  obtain ⟨m, hm, hst, rfl⟩ := schedMarkDone_ok h
  have hmv : Moves s (s.update id Measurement.complete Measurement.complete_id) id
      .inProgress .complete :=
    Moves.of_update (by simp [Msms.stateOf, hm, hst]) (fun _ => rfl) fun _ => rfl
  refine ⟨hmv.before, fun i => ?_, fun i => ?_⟩
  · rw [← hmv.states, Msms.stateOf, Msms.stateOf, Msms.noteDone, Msms.get?_mapValues]
    cases (s.update id Measurement.complete Measurement.complete_id).get? i <;> simp
  · rw [← hmv.plans, Msms.noteDone, Msms.get?_mapValues]
    cases (s.update id Measurement.complete Measurement.complete_id).get? i <;> simp

theorem schedFinished_iff {s : Msms} :
    schedFinished s = true ↔ ∀ m ∈ s.entries, m.state = .complete := by
  simp [schedFinished, schedNumIncomplete, List.filter_eq_nil_iff]

/-! Loading a list of measurements. -/

/-- What `check_and_insert_measurements` checks. -/
structure Accepted (ms : List Measurement) : Prop where
  ids_nodup : (ms.map Measurement.id).Nodup
  depends_loaded : ∀ m ∈ ms, ∀ d ∈ m.depends, d ∈ ms.map Measurement.id

theorem checkAndInsert_ok {base s : Msms} {ms : List Measurement}
    (h : checkAndInsertMeasurements base ms = .ok s) :
    Accepted ms ∧ s = ms.foldl Msms.insert base := by
  simp only [checkAndInsertMeasurements, bind_eq_ok, failIf_eq_ok, pure_eq_ok, not_not] at h
  obtain ⟨-, hlen, -, hdep, rfl⟩ := h
  refine ⟨⟨?_, fun m hm d hd => ?_⟩, rfl⟩
  · have heq := (List.dedup_sublist (ms.map Measurement.id)).eq_of_length (by simpa using hlen)
    exact heq ▸ List.nodup_dedup _
  · have hd' : d ∈ (ms.flatMap Measurement.depends).dedup :=
      List.mem_dedup.mpr (List.mem_flatMap.mpr ⟨m, hm, hd⟩)
    have := not_exists.mp hdep d
    simp only [hd', true_and, not_not, List.mem_dedup] at this
    exact this

/-- Conversely a list that meets the checks is loaded. -/
theorem Accepted.checkAndInsert {ms : List Measurement} (h : Accepted ms) (base : Msms) :
    checkAndInsertMeasurements base ms = .ok (ms.foldl Msms.insert base) := by
  simp only [checkAndInsertMeasurements, bind_eq_ok, failIf_eq_ok, pure_eq_ok, not_not]
  refine ⟨(), by simp [h.ids_nodup.dedup], (), ?_, trivial⟩
  rintro ⟨d, hd, hn⟩
  obtain ⟨m, hm, hdm⟩ := List.mem_flatMap.mp (List.mem_dedup.mp hd)
  exact hn (List.mem_dedup.mpr (h.depends_loaded m hm d hdm))

theorem parseLines_fresh {lines : List Text} {ms : List Measurement}
    (h : parseLines lines = .ok ms) : ∀ m ∈ ms, m.Fresh := by
  simp only [parseLines, bind_eq_ok, pure_eq_ok] at h
  obtain ⟨os, hos, rfl⟩ := h
  intro m hm
  obtain ⟨o, ho, rfl⟩ : ∃ o ∈ os, o = some m := by simpa using hm
  obtain ⟨line, -, hline⟩ := exists_of_mapM hos ho
  exact newFromString_fresh hline

theorem schedNew_ok {rank : UInt32 → ℕ} {base s : Msms} {lines : List Text} {n : ℕ}
    (h : schedNew rank base lines = .ok (s, n)) : ∃ ms, parseLines lines = .ok ms ∧
      checkAndInsertMeasurements base ms = .ok s ∧ n = schedNum s := by
  simp only [schedNew, bind_eq_ok, failIf_eq_ok, pure_eq_ok, Prod.mk.injEq] at h
  obtain ⟨ms, hms, s', hload, -, -, -, -, rfl, rfl⟩ := h
  exact ⟨ms, hms, hload, rfl⟩

theorem loaded_get? {ms : List Measurement} (h : Accepted ms) (base : Msms) {m : Measurement}
    (hm : m ∈ ms) : (ms.foldl Msms.insert base).get? m.id = some m := by
  have hf : ms.find? (fun x => x.id = m.id) = some m := by
    cases hf : ms.find? (fun x => x.id = m.id) with
    | none => simpa using List.find?_eq_none.mp hf m hm
    | some x =>
      have hx : x.id = m.id := by simpa using List.find?_some hf
      rw [List.inj_on_of_nodup_map h.ids_nodup (List.mem_of_find?_eq_some hf) hm hx]
  rw [Msms.get?_foldl_insert h.ids_nodup, hf, Option.some_or]

theorem loaded_other {ms : List Measurement} (h : Accepted ms) (base : Msms) {id : UInt32}
    (hid : id ∉ ms.map Measurement.id) : (ms.foldl Msms.insert base).get? id = base.get? id := by
  have hf : ms.find? (fun x => x.id = id) = none := by
    simp only [List.find?_eq_none, decide_eq_true_eq]
    exact fun x hx heq => hid (List.mem_map.mpr ⟨x, hx, heq⟩)
  rw [Msms.get?_foldl_insert h.ids_nodup, hf, Option.none_or]

/-! The task system of a schedule, and the table as one of its configurations. -/

/-- Measurement `i` lists `j` in its depends. -/
def DependsOn (ms : List Measurement) (i j : UInt32) : Prop :=
  ∃ m ∈ ms, m.id = i ∧ j ∈ m.depends

/-- The measurement repeats no dependency, and its failsafe time can be computed in `u32`. -/
def Measurement.Startable (m : Measurement) : Prop :=
  m.depends.Nodup ∧ 3 * m.dur.toNat < 2 ^ 32

def tasks (ms : List Measurement) (h : Accepted ms) : Tasks UInt32 where
  nodes := (ms.map Measurement.id).toFinset
  needs := DependsOn ms
  able i := ∀ m ∈ ms, m.id = i → m.Startable
  needs_left := by
    rintro i j ⟨m, hm, rfl, -⟩
    exact List.mem_toFinset.mpr (List.mem_map_of_mem hm)
  needs_right := by
    rintro i j ⟨m, hm, rfl, hj⟩
    exact List.mem_toFinset.mpr (h.depends_loaded m hm j hj)

def State.status : State → Status
  | .waiting => .waiting
  | .inProgress => .running
  | .complete => .complete

@[simp] theorem State.status_eq_waiting {st : State} : st.status = .waiting ↔ st = .waiting := by
  cases st <;> simp [status]

@[simp] theorem State.status_eq_running {st : State} : st.status = .running ↔ st = .inProgress := by
  cases st <;> simp [status]

@[simp] theorem State.status_eq_complete {st : State} : st.status = .complete ↔ st = .complete := by
  cases st <;> simp [status]

/-- The table runs the schedule `ms`: every measurement of `ms` is there, in the state the
configuration says, and its `finished_depends` are its completed depends, each once. Entries of
earlier schedules are complete. -/
structure Tracks (ms : List Measurement) (s : Msms) (c : Config UInt32) : Prop where
  loaded : ∀ m₀ ∈ ms, ∃ m, s.get? m₀.id = some m ∧ m.plan = m₀.plan ∧
    m.state.status = c m₀.id ∧ m.finishedDepends.Nodup ∧
    ∀ d, d ∈ m.finishedDepends ↔ d ∈ m.depends ∧ c d = .complete
  others : ∀ m ∈ s.entries, m.id ∉ ms.map Measurement.id → m.state = .complete

theorem depends_of_plan {m m₀ : Measurement} (h : m.plan = m₀.plan) : m.depends = m₀.depends := by
  simpa only [Measurement.plan_depends] using congrArg Measurement.depends h

theorem dur_of_plan {m m₀ : Measurement} (h : m.plan = m₀.plan) : m.dur = m₀.dur := by
  simpa only [Measurement.plan_dur] using congrArg Measurement.dur h

section Simulation
variable {ms : List Measurement} {s s' : Msms} {c : Config UInt32} (ha : Accepted ms)
include ha

theorem Tracks.start {base : Msms} (hbase : schedFinished base = true)
    (hfresh : ∀ m ∈ ms, m.Fresh) : Tracks ms (ms.foldl Msms.insert base) Tasks.initial := by
  refine ⟨fun m hm => ⟨m, loaded_get? ha base hm, rfl, ?_, ?_, ?_⟩, fun m hm hid => ?_⟩
  · simp [(hfresh m hm).waiting, State.status, Tasks.initial]
  · simp [(hfresh m hm).no_finished]
  · simp [(hfresh m hm).no_finished, Tasks.initial]
  · have hget := Msms.get?_eq_some_iff.mpr ⟨hm, rfl⟩
    rw [loaded_other ha base hid] at hget
    exact schedFinished_iff.mp hbase m (Msms.get?_eq_some_iff.mp hget).1

omit ha in
/-- An entry that is not complete belongs to the schedule. -/
theorem Tracks.origin (ht : Tracks ms s c) {m : Measurement} (hm : m ∈ s.entries)
    (hst : m.state ≠ .complete) : ∃ m₀ ∈ ms, m₀.id = m.id ∧ m.plan = m₀.plan ∧
      m.state.status = c m₀.id ∧ m.finishedDepends.Nodup ∧
      ∀ d, d ∈ m.finishedDepends ↔ d ∈ m.depends ∧ c d = .complete := by
  by_cases hid : m.id ∈ ms.map Measurement.id
  · obtain ⟨m₀, hm₀, heq⟩ := List.mem_map.mp hid
    obtain ⟨m', hget, hrest⟩ := ht.loaded m₀ hm₀
    rw [heq, Msms.get?_eq_some_iff.mpr ⟨hm, rfl⟩] at hget
    obtain rfl := Option.some.inj hget
    exact ⟨m₀, hm₀, heq, hrest⟩
  · exact absurd (ht.others m hm hid) hst

/-- The length test is right about what it accepts: as `finished_depends` are distinct members of
`depends`, equal lengths leave no room for a repeated or an unfinished one. -/
theorem Tracks.ready_able (ht : Tracks ms s c) {m : Measurement} (hm : m ∈ s.entries)
    (hready : m.ready = true) (hdur : 3 * m.dur.toNat < 2 ^ 32) :
    (tasks ms ha).Ready c m.id := by
  obtain ⟨hw, hlen⟩ : m.state = .waiting ∧ m.depends.length = m.finishedDepends.length := by
    simpa [Measurement.ready] using hready
  obtain ⟨m₀, hm₀, hid, hplan, hst, hnd, hfin⟩ := ht.origin hm (by simp [hw])
  have hperm : m.finishedDepends.Perm m.depends :=
    (hnd.subperm fun d hd => ((hfin d).mp hd).1).perm_of_length_le hlen.le
  have huniq : ∀ m₁ ∈ ms, m₁.id = m.id → m₁ = m₀ := fun m₁ hm₁ h₁ =>
    List.inj_on_of_nodup_map ha.ids_nodup hm₁ hm₀ (h₁.trans hid.symm)
  refine ⟨?_, ?_, fun m₁ hm₁ h₁ => ?_, ?_⟩
  · exact List.mem_toFinset.mpr (List.mem_map.mpr ⟨m₀, hm₀, hid⟩)
  · rw [← hid, ← hst, hw]; rfl
  · rw [huniq m₁ hm₁ h₁]
    exact ⟨depends_of_plan hplan ▸ hperm.nodup_iff.mp hnd, dur_of_plan hplan ▸ hdur⟩
  · rintro d ⟨m₁, hm₁, h₁, hd⟩
    rw [huniq m₁ hm₁ h₁, ← depends_of_plan hplan] at hd
    exact ((hfin d).mp (hperm.mem_iff.mpr hd)).2

/-- And it accepts every task that may start. -/
theorem Tracks.ready_of_able (ht : Tracks ms s c) {i : UInt32} (h : (tasks ms ha).Ready c i) :
    ∃ m ∈ s.entries, m.id = i ∧ m.ready = true ∧ 3 * m.dur.toNat < 2 ^ 32 := by
  obtain ⟨hi, hw, hable, hneeds⟩ := h
  obtain ⟨m₀, hm₀, rfl⟩ := List.mem_map.mp (List.mem_toFinset.mp hi)
  obtain ⟨m, hget, hplan, hst, hnd, hfin⟩ := ht.loaded m₀ hm₀
  obtain ⟨hdn, hdur⟩ := hable m₀ hm₀ rfl
  obtain ⟨hm, hid⟩ := Msms.get?_eq_some_iff.mp hget
  have hwait : m.state = .waiting := State.status_eq_waiting.mp (hst.trans hw)
  have hall : ∀ d, d ∈ m.depends → c d = .complete := fun d hd =>
    hneeds d ⟨m₀, hm₀, rfl, depends_of_plan hplan ▸ hd⟩
  have hlen : m.depends.length = m.finishedDepends.length := by
    apply List.Perm.length_eq
    refine (List.perm_ext_iff_of_nodup (depends_of_plan hplan ▸ hdn) hnd).mpr fun d => ?_
    exact ⟨fun hd => (hfin d).mpr ⟨hd, hall d hd⟩, fun hd => ((hfin d).mp hd).1⟩
  exact ⟨m, hm, hid, by simp [Measurement.ready, hwait, hlen], dur_of_plan hplan ▸ hdur⟩

theorem Tracks.next (ht : Tracks ms s c) {rank : UInt32 → ℕ} {now : EpochSecs} {r : UInt32}
    (h : schedNext rank now s = .ok (r, s')) :
    (r = 0 ∧ s' = s ∧ ∀ m ∈ s.entries, m.ready = false) ∨
      ((tasks ms ha).Ready c r ∧ Tracks ms s' (Function.update c r .running)) := by
  rcases schedNext_ok h with ⟨h0, hs, hnone⟩ | ⟨m, stop, hget, hready, hstop, rfl⟩
  · exact .inl ⟨h0, hs, hnone⟩
  obtain ⟨hm, rfl⟩ := Msms.get?_eq_some_iff.mp hget
  have hr := ht.ready_able ha hm hready ((failsafeStop_ok_iff now m.dur).mp ⟨stop, hstop⟩)
  -- the task being started was waiting, so the completed tasks are the same as before
  have hcomp (d : UInt32) :
      Function.update c m.id Status.running d = .complete ↔ c d = .complete := by
    by_cases hd : d = m.id
    · subst hd; simp [hr.2.1]
    · rw [Function.update_of_ne hd]
  refine .inr ⟨hr, ⟨fun m₀ hm₀ => ?_, fun x hx hid => ?_⟩⟩
  · obtain ⟨m₁, hget₁, hplan, hst, hnd, hfin⟩ := ht.loaded m₀ hm₀
    by_cases hi : m₀.id = m.id
    · refine ⟨m₁.begin stop, by rw [Msms.get?_update, if_pos hi, hget₁]; rfl, hplan, ?_, hnd, ?_⟩
      · rw [hi, Function.update_self]; rfl
      · simpa [hcomp] using hfin
    · refine ⟨m₁, by rw [Msms.get?_update, if_neg hi, hget₁], hplan, ?_, hnd, ?_⟩
      · rwa [Function.update_of_ne hi]
      · simpa [hcomp] using hfin
  · have hx' := Msms.get?_eq_some_iff.mpr ⟨hx, rfl⟩
    have hne : x.id ≠ m.id := by
      intro heq
      exact hid (heq ▸ List.mem_toFinset.mp hr.1)
    rw [Msms.get?_update, if_neg hne] at hx'
    exact ht.others x (Msms.get?_eq_some_iff.mp hx').1 hid

omit ha in
theorem Tracks.markDone (ht : Tracks ms s c) {id : UInt32} (h : schedMarkDone id s = .ok s') :
    id ∈ ms.map Measurement.id ∧ c id = .running ∧
      Tracks ms s' (Function.update c id .complete) := by
  obtain ⟨m, hget, hst, rfl⟩ := schedMarkDone_ok h
  obtain ⟨hm, rfl⟩ := Msms.get?_eq_some_iff.mp hget
  obtain ⟨m₀, hm₀, hid, -, hstat, -⟩ := ht.origin hm (by simp [hst])
  have hrun : c m.id = .running := by rw [← hid, ← hstat, hst]; rfl
  have hcomp (d : UInt32) :
      Function.update c m.id Status.complete d = .complete ↔ d = m.id ∨ c d = .complete := by
    by_cases hd : d = m.id
    · subst hd; simp
    · rw [Function.update_of_ne hd]; simp [hd]
  refine ⟨List.mem_map.mpr ⟨m₀, hm₀, hid⟩, hrun, ⟨fun m₁ hm₁ => ?_, fun x hx hxid => ?_⟩⟩
  · obtain ⟨m₂, hget₂, hplan, hst₂, hnd, hfin⟩ := ht.loaded m₁ hm₁
    -- the entry before its `finished_depends` are touched
    obtain ⟨m₃, hget₃, hplan₃, hst₃, hdep₃, hfd₃⟩ : ∃ m₃,
        (s.update m.id Measurement.complete Measurement.complete_id).get? m₁.id = some m₃ ∧
        m₃.plan = m₁.plan ∧ m₃.state.status = Function.update c m.id Status.complete m₁.id ∧
        m₃.depends = m₂.depends ∧ m₃.finishedDepends = m₂.finishedDepends := by
      by_cases hi : m₁.id = m.id
      · refine ⟨m₂.complete, by rw [Msms.get?_update, if_pos hi, hget₂]; rfl, hplan, ?_, rfl, rfl⟩
        rw [hi, Function.update_self]; rfl
      · refine ⟨m₂, by rw [Msms.get?_update, if_neg hi, hget₂], hplan, ?_, rfl, rfl⟩
        rwa [Function.update_of_ne hi]
    refine ⟨m₃.noteDone m.id, by rw [Msms.noteDone, Msms.get?_mapValues, hget₃]; rfl,
      by simpa using hplan₃, by simpa using hst₃, ?_, fun d => ?_⟩
    · have hnew : m.id ∉ m₂.finishedDepends := by
        intro hin
        have hdone := ((hfin m.id).mp hin).2
        simp [hrun] at hdone
      exact Measurement.nodup_noteDone (hfd₃ ▸ hnd) (hfd₃ ▸ hnew)
    · rw [Measurement.mem_noteDone, Measurement.noteDone_depends, hfd₃, hdep₃, hfin, hcomp]
      constructor
      · rintro (⟨hd, hc⟩ | ⟨rfl, hd⟩)
        · exact ⟨hd, .inr hc⟩
        · exact ⟨hd, .inl rfl⟩
      · rintro ⟨hd, rfl | hc⟩
        · exact .inr ⟨rfl, hd⟩
        · exact .inl ⟨hd, hc⟩
  · have hmv := schedMarkDone_moves h
    have hx' := Msms.get?_eq_some_iff.mpr ⟨hx, rfl⟩
    have hne : x.id ≠ m.id := fun heq => hxid (heq ▸ List.mem_map.mpr ⟨m₀, hm₀, hid⟩)
    have hsx := hmv.states x.id
    rw [if_neg hne, Msms.stateOf, hx', Option.map_some] at hsx
    obtain ⟨y, hy, hyst⟩ := Option.map_eq_some_iff.mp hsx.symm
    obtain ⟨hym, hyid⟩ := Msms.get?_eq_some_iff.mp hy
    rw [← hyst]
    exact ht.others y hym (hyid ▸ hxid)

end Simulation
end Flashflow.Sched
