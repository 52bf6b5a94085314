import Flashflow.Library.Behaviour
import Flashflow.Sched.Schedule

/-! Several schedules in one process. The table is never cleared: measurements of earlier schedules
stay in it as complete, which later calls do not notice but the number of measurements does. -/
namespace Flashflow.Sched
open Outcome Iteration Behaviour

/-- The two calls with which the main loop drives the scheduler. -/
inductive SchedCall where
  | next (now : EpochSecs)
  | markDone (id : UInt32)

/-- The possible outcomes of a call: the order of iteration is not fixed. -/
def SchedCall.Outcome (s : Msms) : SchedCall → Except Panic (UInt32 × Msms) → Prop
  | .next now, o => ∃ rank, schedNext rank now s = o
  | .markDone id, o => (schedMarkDone id s).map (fun s' => (0, s')) = o

/-- What the calls from `s` on may answer. -/
abbrev Observed : Msms → List (SchedCall × Except Panic UInt32) → Prop := Shows SchedCall.Outcome

/-- Two tables have the same entries at the ids in `D`, and elsewhere only complete ones. -/
structure Agree (D : UInt32 → Prop) (s t : Msms) : Prop where
  same : ∀ i, D i → s.get? i = t.get? i
  left : ∀ i m, ¬ D i → s.get? i = some m → m.state = .complete
  right : ∀ i m, ¬ D i → t.get? i = some m → m.state = .complete

section Simulation
variable {D : UInt32 → Prop} {s t : Msms} {m : Measurement} {id : UInt32}

theorem Agree.symm (h : Agree D s t) : Agree D t s where
  same i hi := (h.same i hi).symm
  left := h.right
  right := h.left

/-- Whatever is ready in one table is ready in the other. -/
theorem Agree.ready (h : Agree D s t) (hm : m ∈ s.entries) (hr : m.ready = true) :
    D m.id ∧ m ∈ t.entries := by
  have hget : s.get? m.id = some m := Msms.get?_eq_some_iff.mpr ⟨hm, rfl⟩
  have hw : m.state = .waiting := (by simpa [Measurement.ready] using hr : _ ∧ _).1
  have hD : D m.id := by
    by_contra hD
    have hc := h.left m.id m hD hget
    rw [hw] at hc
    cases hc
  refine ⟨hD, ?_⟩
  rw [h.same m.id hD] at hget
  exact (Msms.get?_eq_some_iff.mp hget).1

theorem Agree.update (h : Agree D s t) {f : Measurement → Measurement} {hf : ∀ m, (f m).id = m.id}
    (hD : D id) : Agree D (s.update id f hf) (t.update id f hf) := by
  have hother : ∀ (u : Msms) (i : UInt32), ¬ D i → (u.update id f hf).get? i = u.get? i := by
    intro u i hi
    rw [Msms.get?_update, if_neg]
    rintro rfl
    exact hi hD
  constructor
  · intro i hi
    rw [Msms.get?_update, Msms.get?_update, h.same i hi]
  · intro i m hi hm
    rw [hother s i hi] at hm
    exact h.left i m hi hm
  · intro i m hi hm
    rw [hother t i hi] at hm
    exact h.right i m hi hm

theorem Agree.noteDone (h : Agree D s t) (id : UInt32) :
    Agree D (s.noteDone id) (t.noteDone id) := by
  unfold Msms.noteDone
  constructor
  · intro i hi
    rw [Msms.get?_mapValues, Msms.get?_mapValues, h.same i hi]
  · intro i m hi hm
    rw [Msms.get?_mapValues] at hm
    obtain ⟨m₀, hm₀, rfl⟩ := Option.map_eq_some_iff.mp hm
    rw [Measurement.noteDone_state]
    exact h.left i m₀ hi hm₀
  · intro i m hi hm
    rw [Msms.get?_mapValues] at hm
    obtain ⟨m₀, hm₀, rfl⟩ := Option.map_eq_some_iff.mp hm
    rw [Measurement.noteDone_state]
    exact h.right i m₀ hi hm₀

/-- A ready measurement is picked in some order of iteration. -/
theorem schedNext_pick (hm : m ∈ s.entries) (hr : m.ready = true) (now : EpochSecs) :
    ∃ rank, schedNext rank now s = (failsafeStop now m.dur).map fun stop =>
      (m.id, s.update m.id (fun x => x.begin stop) fun x => x.begin_id stop) := by
  obtain ⟨rank, hrank⟩ := exists_rank_find? Measurement.id Measurement.ready
    (fun b hb hid => List.inj_on_of_nodup_map s.nodup hb hm hid) hm hr
  refine ⟨rank, ?_⟩
  simp only [schedNext, schedNextInternal, hrank, ↓reduceIte]
  cases failsafeStop now m.dur <;> rfl

theorem schedNext_none (h : ∀ m ∈ s.entries, m.ready = false) (rank : UInt32 → ℕ)
    (now : EpochSecs) : schedNext rank now s = .ok (0, s) := by
  simp only [schedNext, schedNextInternal, find?_ranked_eq_none.mpr h]

theorem Agree.next_ok (h : Agree D s t) {rank : UInt32 → ℕ} {now : EpochSecs} {r : UInt32}
    {s' : Msms} (hn : schedNext rank now s = .ok (r, s')) :
    ∃ rank' t', schedNext rank' now t = .ok (r, t') ∧ Agree D s' t' := by
  rcases schedNext_ok hn with ⟨rfl, rfl, hnone⟩ | ⟨m, stop, hget, hr, hstop, rfl⟩
  · refine ⟨rank, t, schedNext_none (fun m hm => ?_) rank now, h⟩
    by_contra hr
    have hr' : m.ready = true := by simpa using hr
    have hs := (h.symm.ready hm hr').2
    rw [hnone m hs] at hr'
    cases hr'
  · obtain ⟨hm, rfl⟩ := Msms.get?_eq_some_iff.mp hget
    obtain ⟨hD, hmt⟩ := h.ready hm hr
    obtain ⟨rank', hn'⟩ := schedNext_pick hmt hr now
    rw [hstop] at hn'
    exact ⟨rank', _, hn', h.update hD⟩

theorem Agree.next_error (h : Agree D s t) {rank : UInt32 → ℕ} {now : EpochSecs} {e : Panic}
    (hn : schedNext rank now s = .error e) : ∃ rank', schedNext rank' now t = .error e := by
  obtain ⟨rfl, m, hm, hr, hdur⟩ := schedNext_error hn
  obtain ⟨-, hmt⟩ := h.ready hm hr
  obtain ⟨rank', hn'⟩ := schedNext_pick hmt hr now
  refine ⟨rank', ?_⟩
  cases hstop : failsafeStop now m.dur with
  | ok stop => exact absurd ((failsafeStop_ok_iff now m.dur).mp ⟨stop, hstop⟩) hdur
  | error e =>
    rw [hn', hstop, (failsafeStop_error hstop).1]
    rfl

theorem Agree.markDone_ok (h : Agree D s t) (hD : D id) {s' : Msms}
    (hs : schedMarkDone id s = .ok s') :
    ∃ t', schedMarkDone id t = .ok t' ∧ Agree D s' t' := by
  obtain ⟨m, hget, hst, rfl⟩ := schedMarkDone_ok hs
  refine ⟨_, ?_, (h.update hD).noteDone id⟩
  simp only [schedMarkDone, ← h.same id hD, hget, bind_eq_ok, failIf_eq_ok, pure_eq_ok, not_not]
  exact ⟨(), hst, trivial⟩

/-- Both tables are asked about the same entry. -/
theorem Agree.markDone_error (h : Agree D s t) (hD : D id) {e : Panic}
    (hs : schedMarkDone id s = .error e) : schedMarkDone id t = .error e := by
  rw [schedMarkDone, h.same id hD] at hs
  rw [schedMarkDone]
  cases hget : t.get? id with
  | none => simpa [hget] using hs
  | some m =>
    by_cases hst : m.state = .inProgress
    · simp [hget, failIf, hst, bind, Except.bind, pure, Except.pure] at hs
    · simpa [hget, failIf, hst, bind, Except.bind] using hs

theorem Agree.simulates : Simulates SchedCall.Outcome
    (fun c => ∀ id, c = .markDone id → D id) (Agree D) := by
  constructor
  · intro s s' t c r h hc hout
    cases c with
    | next now =>
      obtain ⟨rank, hn⟩ := hout
      obtain ⟨rank', t', hn', h'⟩ := h.next_ok hn
      exact ⟨t', ⟨rank', hn'⟩, h'⟩
    | markDone id =>
      cases hs : schedMarkDone id s with
      | error e => simp [SchedCall.Outcome, hs, Except.map] at hout
      | ok u =>
        obtain ⟨rfl, rfl⟩ : 0 = r ∧ u = s' := by
          simpa [SchedCall.Outcome, hs, Except.map] using hout
        obtain ⟨t', ht, h'⟩ := h.markDone_ok (hc id rfl) hs
        exact ⟨t', by simp [SchedCall.Outcome, ht, Except.map], h'⟩
  · intro s t c e h hc hout
    cases c with
    | next now =>
      obtain ⟨rank, hn⟩ := hout
      exact h.next_error hn
    | markDone id =>
      cases hs : schedMarkDone id s with
      | ok u => simp [SchedCall.Outcome, hs, Except.map] at hout
      | error e' =>
        obtain rfl : e' = e := by simpa [SchedCall.Outcome, hs, Except.map] using hout
        simp [SchedCall.Outcome, h.markDone_error (hc id rfl) hs, Except.map]

/-- Calls about ids in `D` cannot tell the tables apart. -/
theorem Agree.observed_iff (h : Agree D s t) {tr : List (SchedCall × Except Panic UInt32)}
    (htr : ∀ x ∈ tr, ∀ id, x.1 = .markDone id → D id) : Observed s tr ↔ Observed t tr :=
  ⟨Agree.simulates.shows h htr, Agree.simulates.shows h.symm htr⟩

end Simulation

/-! Loading a schedule into a table whose measurements are all complete. -/

/-- The tables of a process: it starts with an empty one, a schedule is loaded when every
measurement is complete, and between two loads the calls come in any order. -/
inductive Served : Msms → Prop
  | boot : Served .empty
  | load {base s : Msms} {rank : UInt32 → ℕ} {lines : List Text} {n : ℕ} (hb : Served base)
      (hfin : schedFinished base = true) (h : schedNew rank base lines = .ok (s, n)) : Served s
  | call {s s' : Msms} {c : SchedCall} {r : UInt32} (hs : Served s)
      (h : c.Outcome s (.ok (r, s'))) : Served s'
  | reset {s s' : Msms} {now : EpochSecs} {id : UInt32} (hs : Served s)
      (h : schedResetFailsafeStop now id s = .ok s') : Served s'

/-- The load of `ms` from `lines`, with the answer `n`, is a fresh start: `n` measurements are in
the file, exactly these are incomplete, and the table behaves like an empty one after the same
load. -/
structure FreshStart (lines : List Text) (ms : List Measurement) (s : Msms) (n : ℕ) : Prop where
  count : n = ms.length
  incomplete : ∀ m, m ∈ s.entries ∧ m.state ≠ .complete ↔ m ∈ ms
  same : ∃ t, (∀ rank, schedNew rank .empty lines = .ok (t, ms.length)) ∧
    ∀ tr, Observed s tr ↔ Observed t tr

section Load
variable {ms : List Measurement} {base : Msms} (ha : Accepted ms)
include ha

/-- An id of the table after loading comes from the schedule or was there before. -/
theorem loaded_id_iff {i : UInt32} :
    i ∈ (ms.foldl Msms.insert base).entries.map Measurement.id ↔
      i ∈ ms.map Measurement.id ∨ i ∈ base.entries.map Measurement.id := by
  have hget : ∀ u : Msms, i ∈ u.entries.map Measurement.id ↔ ∃ m, u.get? i = some m := by
    intro u
    simp only [List.mem_map, Msms.get?_eq_some_iff]
  by_cases hi : i ∈ ms.map Measurement.id
  · obtain ⟨m, hm, rfl⟩ := List.mem_map.mp hi
    have hl := (hget _).mpr ⟨m, loaded_get? ha base hm⟩
    simp only [hl, hi, true_or]
  · rw [hget, hget, loaded_other ha base hi]
    simp only [hi, false_or]

/-- The table grows by the number of measurements exactly when it held none but theirs. -/
theorem loaded_length_iff : schedNum (ms.foldl Msms.insert base) = ms.length ↔
    ∀ m ∈ base.entries, m.id ∈ ms.map Measurement.id := by
  have hnd := (ms.foldl Msms.insert base).nodup
  have hsub : ms.map Measurement.id ⊆ (ms.foldl Msms.insert base).entries.map Measurement.id :=
    fun i hi => (loaded_id_iff ha).mpr (.inl hi)
  have hlen : (ms.map Measurement.id).length = ms.length := List.length_map _
  have hlen' : ((ms.foldl Msms.insert base).entries.map Measurement.id).length =
      schedNum (ms.foldl Msms.insert base) := List.length_map _
  constructor
  · intro h m hm
    have hperm : (ms.map Measurement.id).Perm
        ((ms.foldl Msms.insert base).entries.map Measurement.id) :=
      (ha.ids_nodup.subperm hsub).perm_of_length_le (by omega)
    exact hperm.mem_iff.mpr ((loaded_id_iff ha).mpr (.inr (List.mem_map_of_mem hm)))
  · intro h
    have hperm : (ms.map Measurement.id).Perm
        ((ms.foldl Msms.insert base).entries.map Measurement.id) := by
      refine (List.perm_ext_iff_of_nodup ha.ids_nodup hnd).mpr fun i => ?_
      rw [loaded_id_iff ha]
      constructor
      · exact fun hi => .inl hi
      · rintro (hi | hi)
        · exact hi
        · obtain ⟨m, hm, rfl⟩ := List.mem_map.mp hi
          exact h m hm
    have hleneq := hperm.length_eq
    omega

theorem loaded_incomplete (hbase : schedFinished base = true) (hfresh : ∀ m ∈ ms, m.Fresh)
    (m : Measurement) :
    m ∈ (ms.foldl Msms.insert base).entries ∧ m.state ≠ .complete ↔ m ∈ ms := by
  constructor
  · rintro ⟨hm, hst⟩
    have hget := Msms.get?_eq_some_iff.mpr ⟨hm, rfl⟩
    by_cases hi : m.id ∈ ms.map Measurement.id
    · obtain ⟨m', hm', hid⟩ := List.mem_map.mp hi
      have hget' := loaded_get? ha base hm'
      rw [hid, hget] at hget'
      exact Option.some.inj hget' ▸ hm'
    · rw [loaded_other ha base hi] at hget
      exact absurd (schedFinished_iff.mp hbase m (Msms.get?_eq_some_iff.mp hget).1) hst
  · intro hm
    have hget := Msms.get?_eq_some_iff.mp (loaded_get? ha base hm)
    refine ⟨hget.1, ?_⟩
    rw [(hfresh m hm).waiting]
    decide

/-- After the load the table agrees with an empty one after the same load, but for the ids that only
earlier schedules had. -/
theorem loaded_agree (hbase : schedFinished base = true) :
    Agree (fun i => i ∈ base.entries.map Measurement.id → i ∈ ms.map Measurement.id)
      (ms.foldl Msms.insert base) (ms.foldl Msms.insert .empty) := by
  constructor
  · intro i hi
    by_cases hms : i ∈ ms.map Measurement.id
    · obtain ⟨m, hm, rfl⟩ := List.mem_map.mp hms
      rw [loaded_get? ha base hm, loaded_get? ha .empty hm]
    · have hnone : base.get? i = none := by
        cases hget : base.get? i with
        | none => rfl
        | some m =>
          obtain ⟨hm, rfl⟩ := Msms.get?_eq_some_iff.mp hget
          exact absurd (hi (List.mem_map_of_mem hm)) hms
      rw [loaded_other ha base hms, loaded_other ha .empty hms, hnone]
      rfl
  · intro i m hi hget
    have hms : i ∉ ms.map Measurement.id := fun h => hi fun _ => h
    rw [loaded_other ha base hms] at hget
    exact schedFinished_iff.mp hbase m (Msms.get?_eq_some_iff.mp hget).1
  · intro i m hi hget
    have hms : i ∉ ms.map Measurement.id := fun h => hi fun _ => h
    rw [loaded_other ha .empty hms] at hget
    cases hget

end Load

theorem schedNew_ready {rank : UInt32 → ℕ} {base s : Msms} {lines : List Text} {n : ℕ}
    (h : schedNew rank base lines = .ok (s, n)) : ∃ m ∈ s.entries, m.ready = true := by
  simp only [schedNew, bind_eq_ok, failIf_eq_ok, pure_eq_ok, Prod.mk.injEq] at h
  obtain ⟨ms, -, s', -, r, hr, -, hne, rfl, -⟩ := h
  simp only [schedNextInternal] at hr
  split at hr
  · obtain rfl : (0, s') = r := Except.ok.inj hr
    exact absurd rfl hne
  next m hm => exact ⟨m, find?_ranked_some hm⟩

/-- What a schedule that is loaded into some table does on an empty one. -/
theorem schedNew_empty {rank : UInt32 → ℕ} {lines : List Text} {ms : List Measurement}
    (hms : parseLines lines = .ok ms) (ha : Accepted ms) (hr : ∃ m ∈ ms, m.ready = true) :
    schedNew rank .empty lines = .ok (ms.foldl Msms.insert .empty, ms.length) := by
  have hfresh := parseLines_fresh hms
  have hcount : schedNum (ms.foldl Msms.insert .empty) = ms.length :=
    (loaded_length_iff ha).mpr fun m hm => absurd hm List.not_mem_nil
  obtain ⟨m, hm, hmr⟩ := hr
  have hent : ∀ x, x ∈ (ms.foldl Msms.insert .empty).entries → x ∈ ms := by
    intro x hx
    by_cases hi : x.id ∈ ms.map Measurement.id
    · obtain ⟨y, hy, hid⟩ := List.mem_map.mp hi
      have hget := loaded_get? ha .empty hy
      rw [hid, Msms.get?_eq_some_iff.mpr ⟨hx, rfl⟩] at hget
      exact Option.some.inj hget ▸ hy
    · have hget := loaded_other ha .empty hi
      rw [Msms.get?_eq_some_iff.mpr ⟨hx, rfl⟩] at hget
      cases hget
  have hnext : ∃ x ∈ ms, schedNextInternal rank .zero false (ms.foldl Msms.insert .empty) =
      .ok (x.id, ms.foldl Msms.insert .empty) := by
    unfold schedNextInternal
    cases hf : (ranked rank Measurement.id (ms.foldl Msms.insert .empty).entries).find?
        Measurement.ready with
    | none =>
      have hmem := (Msms.get?_eq_some_iff.mp (loaded_get? ha .empty hm)).1
      rw [find?_ranked_eq_none.mp hf m hmem] at hmr
      cases hmr
    | some x => exact ⟨x, hent x (find?_ranked_some hf).1, rfl⟩
  obtain ⟨x, hx, hnext⟩ := hnext
  have hne : x.id ≠ 0 := (hfresh x hx).id_ne_zero
  simp [schedNew, hms, ha.checkAndInsert, hnext, failIf, hne, hcount, bind, Except.bind, pure,
    Except.pure]

/-- Every load into a finished table behaves like one into an empty table, as long as nobody asks
for a measurement of an earlier schedule. -/
theorem reload_observed_iff {rank : UInt32 → ℕ} {base s : Msms} {lines : List Text} {n : ℕ}
    {ms : List Measurement} (hfin : schedFinished base = true) (hms : parseLines lines = .ok ms)
    (hnew : schedNew rank base lines = .ok (s, n)) :
    ∃ t, (∀ rank', schedNew rank' .empty lines = .ok (t, ms.length)) ∧
      ∀ tr, (∀ x ∈ tr, ∀ id, x.1 = .markDone id →
        id ∈ base.entries.map Measurement.id → id ∈ ms.map Measurement.id) →
        (Observed s tr ↔ Observed t tr) := by
  obtain ⟨ms', hms', hload, -⟩ := schedNew_ok hnew
  obtain rfl : ms' = ms := Except.ok.inj (hms'.symm.trans hms)
  obtain ⟨ha, rfl⟩ := checkAndInsert_ok hload
  have hfresh := parseLines_fresh hms
  obtain ⟨m, hm, hr⟩ := schedNew_ready hnew
  have hw : m.state ≠ .complete := by
    have hw : m.state = .waiting := (by simpa [Measurement.ready] using hr : _ ∧ _).1
    rw [hw]
    decide
  have hmem := (loaded_incomplete ha hfin hfresh m).mp ⟨hm, hw⟩
  refine ⟨_, fun rank' => schedNew_empty hms ha ⟨m, hmem, hr⟩, fun tr htr => ?_⟩
  exact (loaded_agree ha hfin).observed_iff htr

/-- A load is a fresh start exactly when the table holds no measurement of an earlier schedule whose
id is missing in the file. -/
theorem reload_fresh_iff {rank : UInt32 → ℕ} {base s : Msms} {lines : List Text} {n : ℕ}
    {ms : List Measurement} (hfin : schedFinished base = true)
    (hms : parseLines lines = .ok ms) (hnew : schedNew rank base lines = .ok (s, n)) :
    FreshStart lines ms s n ↔ ∀ m ∈ base.entries, m.id ∈ ms.map Measurement.id := by
  obtain ⟨ms', hms', hload, hn⟩ := schedNew_ok hnew
  obtain rfl : ms' = ms := Except.ok.inj (hms'.symm.trans hms)
  obtain ⟨ha, hs⟩ := checkAndInsert_ok hload
  have hcount : n = ms'.length ↔ ∀ m ∈ base.entries, m.id ∈ ms'.map Measurement.id := by
    rw [hn, hs]
    exact loaded_length_iff ha
  constructor
  · intro h
    exact hcount.mp h.count
  · intro h
    obtain ⟨t, ht, hobs⟩ := reload_observed_iff hfin hms hnew
    refine ⟨hcount.mpr h, ?_, t, ht, fun tr => hobs tr ?_⟩
    · rw [hs]
      exact loaded_incomplete ha hfin (parseLines_fresh hms)
    · intro _ _ id _ hid
      obtain ⟨m, hm, rfl⟩ := List.mem_map.mp hid
      exact h m hm

/-! Two rounds, with one measurement each. -/

def firstLines : List Text := ["1 AA 30 m 1 1 0".toList]

def firstSchedule : List Measurement :=
  [⟨1, "AA".toList, 30, .waiting, [⟨"m".toList, 1, 1⟩], [], [], 0⟩]

def secondLines : List Text := ["2 BB 30 m 1 1 0".toList]

def secondSchedule : List Measurement :=
  [⟨2, "BB".toList, 30, .waiting, [⟨"m".toList, 1, 1⟩], [], [], 0⟩]

/-- The table after the first round. -/
def firstDone : Msms :=
  (((firstSchedule.foldl Msms.insert .empty).update 1 (fun x => x.begin 45)
    fun x => x.begin_id 45).update 1 Measurement.complete Measurement.complete_id).noteDone 1

theorem firstDone_served : Served firstDone := by
  have hload : schedNew (fun _ => 0) .empty firstLines =
      .ok (firstSchedule.foldl Msms.insert .empty, 1) := rfl
  have h₁ : Served (firstSchedule.foldl Msms.insert .empty) := .load .boot rfl hload
  have h₂ := h₁.call (c := .next .zero) (r := 1) ⟨fun _ => 0, rfl⟩
  exact h₂.call (c := .markDone 1) (r := 0) rfl

/-- The second file has one measurement, and the load counts two. -/
theorem second_load_counts_both : ∃ s, Served firstDone ∧ schedFinished firstDone = true ∧
    parseLines secondLines = .ok secondSchedule ∧
    schedNew (fun _ => 0) firstDone secondLines = .ok (s, 2) ∧
    ¬ FreshStart secondLines secondSchedule s 2 := by
  refine ⟨secondSchedule.foldl Msms.insert firstDone, firstDone_served, rfl, rfl, rfl, fun h => ?_⟩
  have hcount := h.count
  revert hcount
  decide

/-! A second file that contains the measurement of the first one. -/

def bothLines : List Text := ["1 AA 30 m 1 1 0".toList, "2 BB 30 m 1 1 1".toList]

def bothSchedule : List Measurement :=
  [⟨1, "AA".toList, 30, .waiting, [⟨"m".toList, 1, 1⟩], [], [], 0⟩,
    ⟨2, "BB".toList, 30, .waiting, [⟨"m".toList, 1, 1⟩], [1], [], 0⟩]

theorem both_load_fresh : ∃ s, Served firstDone ∧ firstDone.entries.map Measurement.id = [1] ∧
    schedNew (fun _ => 0) firstDone bothLines = .ok (s, 2) ∧
    FreshStart bothLines bothSchedule s 2 := by
  have hparsed : parseLines bothLines = .ok bothSchedule := rfl
  have hload : schedNew (fun _ => 0) firstDone bothLines =
      .ok (bothSchedule.foldl Msms.insert firstDone, 2) := rfl
  refine ⟨_, firstDone_served, rfl, hload, (reload_fresh_iff rfl hparsed hload).mpr ?_⟩
  decide

end Flashflow.Sched
