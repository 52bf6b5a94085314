import Flashflow.Loop.Effects
import Flashflow.Sched.Finish

/-! The order of the measurements in the runs of the coordinator: the table follows the task system
of the schedule, whatever the clients and the clock do. -/
namespace Flashflow
open Sched Program Outcome Dependency LabelledRun

/-- The measurement an event belongs to. -/
def Event.msm : Event → UInt32
  | .started m | .claimed _ m | .sent _ m _ | .confirmed _ m _ | .failed m | .succeeded m => m

/-- The measurement is over, with or without success. -/
def IsOver (m : UInt32) (es : List Event) : Prop := .failed m ∈ es ∨ .succeeded m ∈ es

theorem msm_of_isOver {m : UInt32} {e : Event} (h : IsOver m [e]) : e.msm = m := by
  rcases h with h | h <;> rw [← List.mem_singleton.mp h] <;> rfl

theorem isOver_append {m : UInt32} {es fs : List Event} :
    IsOver m (es ++ fs) ↔ IsOver m es ∨ IsOver m fs := by
  simp only [IsOver, List.mem_append]
  tauto

/-- An event of a measurement comes after everything that belongs to a measurement it depends on,
directly or through others. -/
def Ordered (ms : List Measurement) (es : List Event) : Prop :=
  ∀ pre e post, es = pre ++ e :: post → ∀ j, Relation.TransGen (DependsOn ms) e.msm j →
    IsOver j pre ∧ ∀ e' ∈ post, e'.msm ≠ j

theorem Ordered.snoc {ms : List Measurement} {es : List Event} {e : Event} (h : Ordered ms es)
    (hnew : ∀ j, Relation.TransGen (DependsOn ms) e.msm j → IsOver j es)
    (hold : ∀ e' ∈ es, ¬ Relation.TransGen (DependsOn ms) e'.msm e.msm) :
    Ordered ms (es ++ [e]) := by
  intro pre e' post hes j hj
  rcases List.eq_nil_or_concat post with rfl | ⟨post, x, rfl⟩
  · obtain ⟨rfl, he⟩ := List.append_inj' hes rfl
    obtain rfl : e = e' := by simpa using he
    exact ⟨hnew j hj, by simp⟩
  · have hes' : es ++ [e] = (pre ++ e' :: post) ++ [x] := by simpa using hes
    obtain ⟨rfl, hx⟩ := List.append_inj' hes' rfl
    obtain rfl : e = x := by simpa using hx
    obtain ⟨hover, hnone⟩ := h pre e' post rfl j hj
    refine ⟨hover, fun y hy => ?_⟩
    rw [List.concat_eq_append] at hy
    rcases List.mem_append.mp hy with hy | hy
    · exact hnone y hy
    · rw [List.mem_singleton.mp hy]
      rintro rfl
      exact hold e' (by simp) hj

namespace Sched

/-- A new failsafe time does not matter to the order. -/
theorem Tracks.resetFailsafeStop {ms : List Measurement} {s s' : Msms}
    {c : Dependency.Config UInt32} (ht : Tracks ms s c) {now : EpochSecs} {id : UInt32}
    (h : schedResetFailsafeStop now id s = .ok s') : Tracks ms s' c := by
  unfold schedResetFailsafeStop at h
  split at h
  · cases h
  simp only [bind_eq_ok, pure_eq_ok] at h
  obtain ⟨stop, -, rfl⟩ := h
  refine ⟨fun m₀ hm₀ => ?_, fun m hm hid => ?_⟩
  · obtain ⟨m, hget, hplan, hst, hnd, hfin⟩ := ht.loaded m₀ hm₀
    rw [Msms.get?_update, hget]
    split
    · exact ⟨m.resetStop stop, rfl, hplan, hst, hnd, hfin⟩
    · exact ⟨m, rfl, hplan, hst, hnd, hfin⟩
  · obtain ⟨m', hm', rfl⟩ := List.mem_map.mp hm
    by_cases hm : m'.id = id
    · rw [if_pos hm] at hid ⊢
      exact ht.others m' hm' hid
    · rw [if_neg hm] at hid ⊢
      exact ht.others m' hm' hid

end Sched

/-- The table and the history of a round agree with a configuration of the task system. -/
structure Scheduled (ms : List Measurement) (ha : Accepted ms) (s : Coord)
    (c : Dependency.Config UInt32) : Prop where
  tracks : Tracks ms s.msms c
  reached : (tasks ms ha).Reaches Tasks.initial c
  begun : ∀ e ∈ s.trace, c e.msm ≠ .waiting
  started : ∀ i, c i ≠ .waiting → .started i ∈ s.trace
  ended : ∀ i, c i = .complete ↔ IsOver i s.trace
  ordered : Ordered ms s.trace

section
variable {r : Round} {ms : List Measurement} {ha : Accepted ms} {table : Msms} {s t : Coord}
  {c : Dependency.Config UInt32} {p : Point} {a : Answer} {e : Event}

theorem Scheduled.safe (h : Scheduled ms ha s c) : (tasks ms ha).Safe c :=
  Tasks.safe_initial.reaches h.reached

/-- What is in progress is running, and the other way round. -/
theorem Scheduled.running (h : Scheduled ms ha s c) {m : UInt32}
    (hm : s.msms.stateOf m = some .inProgress) : c m = .running := by
  obtain ⟨x, hx, hst⟩ := Option.map_eq_some_iff.mp hm
  obtain ⟨hmem, rfl⟩ := Msms.get?_eq_some_iff.mp hx
  obtain ⟨m₀, -, hid, -, hstat, -⟩ := h.tracks.origin hmem (by simp [hst])
  rw [← hid, ← hstat, hst]
  rfl

/-- Nothing happens to a configuration that does not concern it. -/
theorem Scheduled.congr (h : Scheduled ms ha s c) (ht : Tracks ms t.msms c)
    (htrace : t.trace = s.trace) : Scheduled ms ha t c :=
  ⟨ht, h.reached, htrace ▸ h.begun, htrace ▸ h.started, htrace ▸ h.ended, htrace ▸ h.ordered⟩

/-- Something happens to a measurement that is not over, and everything it needs is. -/
theorem Scheduled.snoc (h : Scheduled ms ha s c) (htrace : t.trace = s.trace ++ [e])
    {c' : Dependency.Config UInt32} (ht : Tracks ms t.msms c')
    (hr : Relation.ReflGen (tasks ms ha).Step c c') (hsame : ∀ i, i ≠ e.msm → c' i = c i)
    (hne : c' e.msm ≠ .waiting) (hopen : c e.msm ≠ .complete)
    (hneeds : ∀ j, Relation.TransGen (DependsOn ms) e.msm j → c j = .complete)
    (hstart : .started e.msm ∈ t.trace) (hend : c' e.msm = .complete ↔ IsOver e.msm [e]) :
    Scheduled ms ha t c' := by
  refine ⟨ht, h.reached.trans hr.to_reflTransGen, fun e' he' => ?_, fun i hi => ?_, fun i => ?_, ?_⟩
  · by_cases hem : e'.msm = e.msm
    · rwa [hem]
    rw [hsame _ hem]
    rcases List.mem_append.mp (htrace ▸ he') with he' | he'
    · exact h.begun e' he'
    · exact absurd (congrArg Event.msm (List.mem_singleton.mp he')) hem
  · by_cases him : i = e.msm
    · rwa [him]
    rw [hsame i him] at hi
    rw [htrace]
    exact List.mem_append_left _ (h.started i hi)
  · rw [htrace, isOver_append, ← h.ended i]
    by_cases him : i = e.msm
    · rw [him, hend, or_iff_right hopen]
    · rw [hsame i him, or_iff_left fun hover => him (msm_of_isOver hover).symm]
  · rw [htrace]
    refine h.ordered.snoc (fun j hj => (h.ended j).mp (hneeds j hj)) fun e' he' hj => hopen ?_
    exact h.safe.complete (h.begun e' he') hj

/-- A client of a running measurement does something. -/
theorem Scheduled.acts (h : Scheduled ms ha s c) (hmsms : t.msms = s.msms)
    (htrace : t.trace = s.trace ++ [e]) (he : s.msms.stateOf e.msm = some .inProgress)
    (hclient : ¬ IsOver e.msm [e]) : Scheduled ms ha t c := by
  have hrun := h.running he
  have hne : c e.msm ≠ .waiting := by rw [hrun]; rintro ⟨⟩
  refine h.snoc htrace (hmsms ▸ h.tracks) .refl (fun _ _ => rfl) hne (by rw [hrun]; rintro ⟨⟩)
    (fun j hj => h.safe.complete hne hj) ?_ ?_
  · rw [htrace]
    exact List.mem_append_left _ (h.started _ hne)
  · exact iff_of_false (by rw [hrun]; rintro ⟨⟩) hclient

theorem Effect.scheduled {begun : UInt32 → Prop} (h : Effect begun a s t) (hco : Coherent table s)
    (hs : Scheduled ms ha s c) :
    ∃ c', Relation.ReflGen (tasks ms ha).Step c c' ∧ Scheduled ms ha t c' := by
  cases h with
  | still _ hmsms _ htrace => exact ⟨c, .refl, hs.congr (hmsms ▸ hs.tracks) htrace⟩
  | @picks m msms hm hnext ht =>
    subst ht
    rcases hs.tracks.next ha hnext with ⟨h0, -⟩ | ⟨hready, htr⟩
    · exact absurd h0 hm
    have hstep : Relation.ReflGen (tasks ms ha).Step c _ := .single (.start hready)
    refine ⟨_, hstep, hs.snoc (e := .started m) rfl htr hstep ?_ ?_ ?_ ?_ ?_ ?_⟩
    · exact fun i him => Function.update_of_ne him _ _
    · simp [Event.msm]
    · simp [Event.msm, hready.2.1]
    · exact fun j hj => hready.complete hs.safe hj
    · exact List.mem_append_right _ (List.mem_singleton.mpr rfl)
    · simp [Event.msm, IsOver]
  | claims hx hcur hm ht =>
    subst ht
    exact ⟨c, .refl, hs.acts rfl rfl hm (by simp [IsOver])⟩
  | enters _ ht =>
    subst ht
    exact ⟨c, .refl, hs.congr hs.tracks rfl⟩
  | sends hx hcur hst ht =>
    subst ht
    have hlive := hco.owner_live (List.mem_of_getElem? hx) hcur
    exact ⟨c, .refl, hs.acts rfl rfl hlive (by simp [IsOver])⟩
  | @confirms k x p hx hst ht =>
    subst ht
    have hcur : x.currentMId ≠ 0 := by
      intro h0
      have hidle := (hco.idle (List.mem_of_getElem? hx) h0).2.1
      rw [hst] at hidle
      cases p <;> cases hidle
    have hlive := hco.owner_live (List.mem_of_getElem? hx) hcur
    exact ⟨c, .refl, hs.acts rfl rfl hlive (by simp [IsOver])⟩
  | resets _ _ hreset ht =>
    subst ht
    exact ⟨c, .refl, hs.congr (hs.tracks.resetFailsafeStop hreset) rfl⟩
  | @ends m e he hdone _ _ htrace =>
    obtain ⟨hid, hrun, htr⟩ := hs.tracks.markDone hdone
    have hstep : Relation.ReflGen (tasks ms ha).Step c (Function.update c m .complete) :=
      .single (.finish (List.mem_toFinset.mpr hid) hrun)
    have hem : e.msm = m := by rcases he with rfl | rfl <;> rfl
    have hne : c m ≠ .waiting := by rw [hrun]; rintro ⟨⟩
    refine ⟨_, hstep, hs.snoc htrace htr hstep ?_ ?_ ?_ ?_ ?_ ?_⟩ <;> rw [hem]
    · exact fun i him => Function.update_of_ne him _ _
    · simp
    · rw [hrun]
      rintro ⟨⟩
    · exact fun j hj => hs.safe.complete hne hj
    · rw [htrace]
      exact List.mem_append_left _ (hs.started m hne)
    · rcases he with rfl | rfl <;> simp [IsOver]

/-- A measurement that is not over comes from the schedule. -/
theorem Coherent.in_schedule {s : Coord} {table : Msms} (hl : Loaded r ms table)
    (h : Coherent table s) {i : UInt32} {e : Measurement} (he : s.msms.get? i = some e)
    (hst : e.state ≠ .complete) : ∃ m ∈ ms, e.plan = m.plan := by
  obtain ⟨e₀, he₀, hst₀, hplan⟩ := h.loaded_incomplete he hst
  obtain ⟨m, hm, -, hm', -⟩ := hl.tracks.origin he₀ hst₀
  exact ⟨m, hm, hplan.symm.trans hm'⟩

theorem Loaded.scheduled (h : Loaded r ms s.msms) (htrace : s.trace = []) :
    Scheduled ms h.accepted s Tasks.initial where
  tracks := h.tracks
  reached := .refl
  begun := by simp [htrace]
  started i hi := absurd rfl hi
  ended i := by simp [htrace, IsOver, Tasks.initial]
  ordered pre e post hes := by simp [htrace] at hes

theorem start_scheduled {s : Loop} (hs : r.start = .ok (some s)) (hl : Loaded r ms s.co.msms) :
    ∃ ha : Accepted ms, ∃ c, Scheduled ms ha s.co c := by
  obtain ⟨-, -, -, -, -, -, htrace, -⟩ := Round.start_ok hs
  exact ⟨hl.accepted, _, hl.scheduled htrace⟩

theorem move_scheduled {d d' : Config} (hd : d.1.Holds table d.2.co) (hm : Move d d')
    (h : Scheduled ms ha d.2.co c) : ∃ ha : Accepted ms, ∃ c, Scheduled ms ha d'.2.co c := by
  obtain ⟨c', -, hc'⟩ := (hm.effect hd).scheduled hd.coherent.1 h
  exact ⟨ha, c', hc'⟩

/-- In every run the table is a configuration that the task system reaches. -/
theorem Reach.scheduled {d : Config} (h : Reach r d) : ∃ ms table, ∃ hl : Loaded r ms table,
    d.1.Holds table d.2.co ∧ ∃ c, Scheduled ms hl.accepted d.2.co c := by
  obtain ⟨ms, table, hl, hholds, ha, c, hc⟩ := Reach.induction (I := fun ms _ s =>
    ∃ ha : Accepted ms, ∃ c, Scheduled ms ha s.co c) start_scheduled
    (fun _ hholds hm ⟨ha, c, hc⟩ => move_scheduled hholds hm hc) h
  exact ⟨ms, table, hl, hholds, c, hc⟩

/-- In every run, at every point, whatever happens to a measurement happens after everything that
happens to a measurement it depends on, directly or through others, and no client works for the one
while a client works for the other. -/
theorem depends_first {s : Loop} (h : Reach r (p, s)) {ms : List Measurement}
    (hms : parseLines r.lines = .ok ms) {i j : UInt32}
    (hij : Relation.TransGen (DependsOn ms) i j) :
    (∀ pre e post, s.co.trace = pre ++ e :: post → e.msm = i →
      (.failed j ∈ pre ∨ .succeeded j ∈ pre) ∧ ∀ e' ∈ post, e'.msm ≠ j) ∧
    ((∃ x ∈ s.co.metas, x.currentMId = j) → ∀ x ∈ s.co.metas, x.currentMId ≠ i) := by
  obtain ⟨ms', table, hl, hholds, c, hc⟩ := h.scheduled
  obtain rfl : ms' = ms := Except.ok.inj (hl.parsed.symm.trans hms)
  have hco : Coherent table s.co := hholds.coherent.1
  have hids : ∀ {k l : UInt32}, DependsOn ms' k l → k ≠ 0 ∧ l ≠ 0 := by
    rintro _ l ⟨m, hm, rfl, hl'⟩
    obtain ⟨m', hm', rfl⟩ := List.mem_map.mp (hl.accepted.depends_loaded m hm l hl')
    exact ⟨(hl.fresh m hm).id_ne_zero, (hl.fresh m' hm').id_ne_zero⟩
  have hrun : ∀ x ∈ s.co.metas, x.currentMId ≠ 0 → c x.currentMId = .running :=
    fun x hx hcur => hc.running (hco.owner_live hx hcur)
  refine ⟨fun pre e post hes hi => hc.ordered pre e post hes j (hi ▸ hij), ?_⟩
  rintro ⟨y, hy, rfl⟩ x hx rfl
  obtain ⟨k, hk, -⟩ := Relation.TransGen.head'_iff.mp hij
  obtain ⟨l, -, hl'⟩ := Relation.TransGen.tail'_iff.mp hij
  have hx' := hrun x hx (hids hk).1
  have hdone := hc.safe.complete (by rw [hx']; rintro ⟨⟩) hij
  rw [hrun y hy (hids hl').2] at hdone
  cases hdone

/-- A round with a second measurement that waits for the one of the example round. -/
def chainRound : Round :=
  { twoClients with lines := ["1 AA 30 m,n 100,50 2,1".toList, "2 BB 30 m 10 1 1".toList] }

def chainRoundSchedule : List Measurement :=
  twoClientsSchedule ++
    [⟨2, "BB".toList, 30, .waiting, [⟨"m".toList, 10, 1⟩], [1], [], 0⟩]

theorem parseLines_chain : parseLines chainRound.lines = .ok chainRoundSchedule := rfl

def chainStart : Loop :=
  { twoClientsStart with
    co := { twoClientsStart.co with msms := ⟨chainRoundSchedule, by decide⟩ } }

theorem chain_atHead {n : ℕ} (hn : n ≤ 7) : AtHead chainRound (chainStart.after n) := by
  have hturns : ∀ i < 7, schedFinished (chainStart.after i).co.msms = false ∧
      (exec mainLoopTurn (chainStart.after i)).1 = .ok true := by
    decide +kernel
  exact (AtHead.first rfl rfl).after fun i hi => hturns i (Nat.lt_of_lt_of_le hi hn)

/-- In the sixth turn the second measurement starts. -/
theorem depends_first_chain : ∃ pre post,
    (chainStart.after 6).co.trace = pre ++ .started 2 :: post ∧
    (.failed 1 ∈ pre ∨ .succeeded 1 ∈ pre) := by
  have hdep : DependsOn chainRoundSchedule 2 1 := by
    refine ⟨_, List.mem_append_right _ (List.mem_singleton.mpr rfl), rfl, ?_⟩
    exact List.mem_singleton.mpr rfl
  have hmem : .started 2 ∈ (chainStart.after 6).co.trace := by decide +kernel
  obtain ⟨pre, post, hes⟩ := List.append_of_mem hmem
  have hms := parseLines_chain
  have hreach := (chain_atHead (n := 6) (by decide)).reach
  exact ⟨pre, post, hes, ((depends_first hreach hms (.single hdep)).1 pre _ post hes rfl).1⟩

/-- A round only comes to its end if no measurement of its schedule depends on itself through
others, none repeats a dependency and every failsafe time can be computed. -/
theorem exits_sound {s : Loop} (h : AtHead r s) (hexit : schedFinished s.co.msms = true) :
    ∃ ms, parseLines r.lines = .ok ms ∧ DependsAcyclic ms ∧ ∀ m ∈ ms, m.Startable := by
  obtain ⟨ms, table, hl, -, c, hc⟩ := h.reach.scheduled
  have hfin := (hc.tracks.finished_iff hl.accepted).mp hexit
  exact ⟨ms, hl.parsed, (sound_iff hl.accepted).mp (Tasks.sound_of_finished hc.reached hfin)⟩

/-- The chained round ends in the seventh turn. -/
theorem exits_sound_chain : schedFinished (chainStart.after 7).co.msms = true ∧
    DependsAcyclic chainRoundSchedule ∧ ∀ m ∈ chainRoundSchedule, m.Startable := by
  have hexit : schedFinished (chainStart.after 7).co.msms = true := by decide +kernel
  obtain ⟨ms, hms, hsound⟩ := exits_sound (chain_atHead (Nat.le_refl 7)) hexit
  obtain rfl : chainRoundSchedule = ms := Except.ok.inj (parseLines_chain.symm.trans hms)
  exact ⟨hexit, hsound⟩

end
end Flashflow
