import Flashflow.Loop.Footprint
import Flashflow.Loop.Scheduling
import Flashflow.Loop.Sessions
import Flashflow.Loop.Sweep

/-! How many turns a round takes. A turn that adds nothing to the history has only waited, and there
are not many of those in a row. -/
namespace Flashflow
open Sched Program Outcome Dependency

/-- The history has grown. -/
def Loop.Longer (s t : Loop) : Prop := s.co.trace.length < t.co.trace.length

/-- Whenever `x` returns something `bad`, the history has grown. -/
def Recorded {α : Type} (bad : α → Prop) (x : LoopM α) : Prop :=
  ∀ s, wp x (fun a t => bad a → s.Longer t) (fun _ _ => True) s

section
variable {α β : Type} {bad : α → Prop} {bad' : β → Prop} {s t u : Loop} {m : UInt32}

theorem Loop.Longer.extends (h : s.Longer t) (ht : t.Extends u) : s.Longer u :=
  Nat.lt_of_lt_of_le h ht.trace.length_le

theorem Loop.Extends.longer (h : s.Extends t) (ht : t.Longer u) : s.Longer u :=
  Nat.lt_of_le_of_lt h.trace.length_le ht

theorem trace_of_not_longer (h : s.Extends t) (hsame : ¬ s.Longer t) :
    t.co.trace = s.co.trace :=
  (h.trace.eq_of_length_le (Nat.le_of_not_lt hsame)).symm

theorem recorded_pure {a : α} (h : ¬ bad a) : Recorded bad (pure a) := fun _ hb => absurd hb h

theorem recorded_ite {p : Prop} [Decidable p] {x y : LoopM α} (hx : Recorded bad x)
    (hy : Recorded bad y) : Recorded bad (if p then x else y) :=
  fun s => wp_ite.mpr ⟨fun _ => hx s, fun _ => hy s⟩

theorem recorded_bind {x : LoopM α} {f : α → LoopM β} (hx : Keeps Loop.Extends x)
    (hf : ∀ a, Recorded bad' (f a)) : Recorded bad' (x >>= f) := by
  intro s
  rw [wp_bind]
  apply wp_of_returns
  intro a t ht
  exact wp_conseq (hf a t) fun b u hu hb => (hx.of_exec ht).longer (hu hb)

/-- What `x` has recorded stays, and otherwise the rest is responsible. -/
theorem recorded_stage {x : LoopM α} {f : α → LoopM β} (hx : Recorded bad x)
    (hkeep : Keeps Loop.Extends x) (hf : ∀ a, bad a → Keeps Loop.Extends (f a))
    (hrest : ∀ a, ¬ bad a → Recorded bad' (f a)) : Recorded bad' (x >>= f) := by
  intro s
  rw [wp_bind]
  apply wp_of_returns
  intro a t ht
  by_cases ha : bad a
  · have hlong : s.Longer t := wp_returns (hx s) ht ha
    exact wp_mono (wp_of_keeps (hf a ha) t) (fun _ _ hu _ => hlong.extends hu) fun _ _ _ => trivial
  · exact wp_conseq (hrest a ha t) fun b u hu hb => (hkeep.of_exec ht).longer (hu hb)

theorem recorded_record (e : Event) : Recorded (fun _ => True) (record e) := by
  intro s
  rw [wp_record]
  simp [Loop.Longer]

theorem recorded_measurementFailed (m : UInt32) :
    Recorded (fun _ => True) (measurementFailed m) := by
  refine recorded_stage (recorded_record _) (keeps_record _) (fun _ _ => ?_) fun _ h =>
    absurd trivial h
  refine keeps_bind keeps_numMetas fun n => keeps_bind (keeps_forEach (fun c => ?_) n) fun _ => ?_
  · refine keeps_bind (keeps_metaAt c) fun x => keeps_ite ?_ (keeps_pure _)
    exact keeps_bind (extends_allows.markFailed c) fun _ => extends_allows.finishedWithMeta c
  · exact keeps_bind (extends_allows.schedCall _) fun _ =>
      keeps_modifyCo (fun _ => rfl) fun _ => List.prefix_refl _

theorem recorded_failure (m : UInt32) (a : α) : Recorded (fun _ => True) (do
    measurementFailed m
    countFailed
    pure a) :=
  recorded_stage (recorded_measurementFailed m) (extends_allows.measurementFailed m) (fun _ _ =>
    keeps_bind extends_allows.countFailed fun _ => keeps_pure a) fun _ h => absurd trivial h

theorem Recorded.weaken {x : LoopM α} {bad₀ : α → Prop} (h : Recorded bad₀ x)
    (hbad : ∀ a, bad a → bad₀ a) : Recorded bad x :=
  fun s => wp_conseq (h s) fun a _ ht hb => ht (hbad a hb)

/-! Where a turn is cut short a measurement has been failed. -/

theorem recorded_passStage {st st' : CsmState} {tell : Slot → ℕ → LoopM Bool}
    (htell : ∀ slot c, Keeps Loop.Extends (tell slot c)) (q : MsmParams) :
    Recorded (· = none) (do
      if ← isTotally st m then passOrFail m st' tell q else pure (some q)) := by
  refine recorded_bind (keeps_isTotally _ m) fun _ => recorded_ite ?_ (recorded_pure (by simp))
  have hpass : Keeps Loop.Extends (assignPass m st' tell q) :=
    keeps_bind keeps_numMetas fun n => keeps_forRange (AllowsConnected.assignTurn htell) n q
  refine recorded_bind hpass fun r => ?_
  cases r with
  | leave => exact (recorded_failure m none).weaken fun _ _ => trivial
  | next q => exact recorded_bind (keeps_fromExcept _) fun _ => recorded_pure (by simp)

theorem recorded_startStage (q : MsmParams) : Recorded (· = false) (startStage m q) := by
  refine recorded_bind (keeps_isTotally _ m) fun _ => recorded_ite ?_ (recorded_pure (by simp))
  refine recorded_bind keeps_answer fun a => recorded_bind (extends_allows.schedCall _) fun _ => ?_
  refine recorded_bind keeps_numMetas fun n =>
    recorded_bind (keeps_forRange (extends_allows.startTurn m q.dur) _ _) fun r => ?_
  cases r with
  | leave => exact (recorded_failure m false).weaken fun _ _ => trivial
  | next told => exact recorded_bind (keeps_fromExcept _) fun _ => recorded_pure (by simp)

theorem recorded_advanceTurn (i : ℕ) : Recorded (· = .leave false) (advanceTurn i) := by
  refine recorded_bind keeps_co fun s => ?_
  cases s.known[i]? with
  | none => exact recorded_pure (by simp)
  | some m =>
    refine recorded_bind (keeps_assertFillParams m) fun p => ?_
    refine recorded_stage (recorded_passStage (fun _ =>
      extends_allows.command tcTellConnect_moves) p) (extends_allows.connectStage m p) ?_ ?_
    · rintro _ rfl
      exact keeps_pure _
    rintro (_ | q) hq
    · exact absurd rfl hq
    refine recorded_stage (recorded_passStage (fun _ =>
      extends_allows.command tcSetBwRate_moves) q) (extends_allows.setBwStage m q) ?_ ?_
    · rintro _ rfl
      exact keeps_pure _
    rintro (_ | q') hq'
    · exact absurd rfl hq'
    refine recorded_stage (recorded_startStage q') (extends_allows.startStage m q') ?_ ?_
    · rintro _ rfl
      exact keeps_pure _
    rintro (_ | _) hok
    · exact absurd rfl hok
    refine recorded_bind (extends_allows.doneStage i m) fun ok => ?_
    exact recorded_ite (recorded_pure (by simp)) (recorded_pure (by simp))

theorem recorded_advance : Recorded (· = false) advance := by
  refine recorded_bind keeps_co fun s₀ s => ?_
  refine wp_conseq (Q := fun ok t => ok = false → s.Longer t) (wp_whileFuel_invariant
    (fun _ t => s.Extends t) ?_ (fun _ => trivial) (refl_of Loop.Extends s)) fun _ _ h => h
  intro i t ht
  apply wp_of_returns
  intro r u hr
  have hext : t.Extends u := (extends_allows.advanceTurn i).of_exec hr
  cases r with
  | next => exact trans_of Loop.Extends ht hext
  | leave ok =>
    rintro rfl
    exact ht.longer (wp_returns (recorded_advanceTurn i t) hr rfl)

/-- A turn in which something is ready starts a measurement. -/
theorem wp_startNew_ready (h0 : statusOf s.co.msms 0 = .over)
    (hready : ∃ e ∈ s.co.msms.entries, e.ready = true) : wp startNew (fun _ t =>
      ∃ m, s.co.trace ++ [.started m] <+: t.co.trace) (fun _ _ => True) s := by
  rw [startNew, wp_bind]
  apply wp_of_returns
  intro a t ha
  rw [wp_bind]
  apply wp_of_returns
  intro m u hm
  obtain ⟨-, hco⟩ := answer_ok ha
  obtain ⟨msms, hnext, hu⟩ := schedCall_ok hm
  rw [hco] at hnext hu
  have hpos : m > 0 := by
    refine UInt32.pos_iff_ne_zero.mpr fun hzero => ?_
    subst hzero
    obtain ⟨rfl, hnone⟩ := schedNext_zero h0 hnext
    obtain ⟨e, he, her⟩ := hready
    rw [hnone e he] at her
    cases her
  have hfail := extends_allows.failed m
  rw [if_pos hpos, wp_bind, wp_record]
  refine wp_mono (wp_of_keeps (R := Loop.Extends) ?_ _) (fun _ v hv => ⟨m, ?_⟩)
    fun _ _ _ => trivial
  · refine keeps_bind (extends_allows.findAndConnectMetas m) fun ok => keeps_ite hfail ?_
    refine keeps_bind (keeps_modifyCo (fun _ => rfl) fun _ => List.prefix_refl _) fun _ => ?_
    exact keeps_bind (extends_allows.sendAuthMetas m) fun ok => keeps_ite hfail (keeps_pure _)
  · have htrace : u.co.trace ++ [.started m] <+: v.co.trace := hv.trace
    rwa [hu] at htrace

/-! The counter of the turns without progress. -/

/-- What `epoll_wait` reports when it is called in `s`; it is not called without a descriptor to
look at. -/
def Loop.reported (s : Loop) : List Int :=
  if (fdSets s.co.metas).interesting = [] then []
  else match (exec (epollWait (fdSets s.co.metas).interesting) s).1 with
    | .ok (some fds) => fds
    | _ => []

theorem wp_pollStage_paced : wp pollStage (fun _ t =>
    ((fdSets s.co.metas).interesting = [] ∧ t = s) ∨
    t.co.trace = s.co.trace ∧ t.co.loopsWithoutProgress = s.co.loopsWithoutProgress + 1 ∨
    s.reported ≠ [] ∧ t.co.loopsWithoutProgress = 0) (fun _ _ => True) s := by
  rw [pollStage, wp_bind, wp_co, wp_ite]
  refine ⟨fun hnone => .inl ⟨hnone, rfl⟩, fun hsome => ?_⟩
  rw [wp_bind]
  apply wp_of_returns
  intro r t hr
  have ht : t.co = s.co := (wp_returns (wp_epollWait (E := fun _ _ => True)) hr).1
  split
  · simp [ht]
  · simp [ht]
  next fds hne =>
    have hreported : s.reported = fds := by rw [Loop.reported, if_neg hsome, hr]
    rw [wp_bind, wp_modifyCo]
    refine wp_mono (wp_of_keeps (paced_writes.handleEvents _ _) _) ?_ fun _ _ _ => trivial
    exact fun _ u hu => .inr (.inr ⟨hreported ▸ hne, hu⟩)

/-- The stages of a turn that comes back to the head. -/
theorem turn_stages (h : LoopStep s t) : ∃ u v w, exec giveUp s = (.ok (), u) ∧
    Walk (.head, s) (.pick, v) ∧ exec failsafeScan u = (.ok (), v) ∧
    exec startNew v = (.ok (), w) ∧ (exec advance w = (.ok false, t) ∨
      ∃ z, exec advance w = (.ok true, z) ∧ Walk (.head, s) (.poll, z) ∧
        exec pollStage z = (.ok true, t)) := by
  refine wp_returns (Q := fun ok t => ok = true → ∃ u v w, exec giveUp s = (.ok (), u) ∧
    Walk (.head, s) (.pick, v) ∧ exec failsafeScan u = (.ok (), v) ∧
    exec startNew v = (.ok (), w) ∧ (exec advance w = (.ok false, t) ∨
      ∃ z, exec advance w = (.ok true, z) ∧ Walk (.head, s) (.poll, z) ∧
        exec pollStage z = (.ok true, t))) (E := fun _ _ => True) ?_ h.2 rfl
  rw [mainLoopTurn, wp_bind]
  apply wp_of_returns
  intro _ u hu
  have hscan := wp_returns (walk_giveUp h.1) hu
  rw [wp_bind]
  apply wp_of_returns
  intro _ v hv
  have hpick := wp_returns (walk_failsafeScan hscan) hv
  rw [wp_bind]
  apply wp_of_returns
  intro _ w hw
  have hadvance := wp_returns (walk_startNew hpick) hw
  rw [wp_bind]
  apply wp_of_returns
  rintro (_ | _) z hz
  · exact fun _ => ⟨u, v, w, hu, hpick, hv, hw, .inl hz⟩
  · apply wp_of_returns
    rintro ok t ht rfl
    exact ⟨u, v, w, hu, hpick, hv, hw, .inr ⟨z, hz, wp_returns (walk_advance hadvance) hz, ht⟩⟩

/-! What the history says about the state. -/

theorem Coherent.crew_unique {table : Msms} {s t : Coord} (hs : Coherent table s)
    (ht : Coherent table t) (h : t.trace = s.trace) : t.crew = s.crew :=
  LabelledRun.Run.unique (fun h h' => h.unique h') ht.runs (h ▸ hs.runs)

theorem schedFinished_iff_status {s : Msms} :
    schedFinished s = true ↔ ∀ i, statusOf s i = .over := by
  rw [schedFinished_iff]
  constructor
  · intro h i
    cases he : s.get? i with
    | none => simp [statusOf, Msms.stateOf, he]
    | some e =>
      have hst := h e (Msms.get?_eq_some_iff.mp he).1
      simp [statusOf, Msms.stateOf, he, hst, State.stage]
  · intro h e he
    have hover := h e.id
    have hget : s.get? e.id = some e := Msms.get?_eq_some_iff.mpr ⟨he, rfl⟩
    simp only [statusOf, Msms.stateOf, hget, Option.map_some, Option.getD_some] at hover
    cases hst : e.state <;> simp_all [State.stage]

theorem Quiet.known_eq_nil {table : Msms} {s t : Coord} (hs : Quiet table s) (ht : Quiet table t)
    (h : t.trace = s.trace) (hknown : t.known = []) : s.known = [] := by
  refine List.eq_nil_iff_forall_not_mem.mpr fun m hm => ?_
  have hstatus : statusOf t.msms = statusOf s.msms :=
    congrArg Barrier.Crew.status (hs.coherent.crew_unique ht.coherent h)
  have hrun := statusOf_running.mpr ((hs.known_iff m).mp hm)
  rw [← hstatus, statusOf_running, ← ht.known_iff, hknown] at hrun
  exact List.not_mem_nil hrun

/-! Turns that add nothing to the history. -/

/-- If nothing is known and there is work left, something can be started. -/
theorem Scheduled.exists_ready {ms : List Measurement} {ha : Accepted ms} {table : Msms}
    {s : Coord} {c : Dependency.Config UInt32} (h : Scheduled ms ha s c) (hq : Quiet table s)
    (hsound : (tasks ms ha).Sound) (hknown : s.known = []) (hfin : schedFinished s.msms = false) :
    ∃ e ∈ s.msms.entries, e.ready = true := by
  have hnf : ¬ (tasks ms ha).Finished c := fun hf => by
    rw [(h.tracks.finished_iff ha).mpr hf] at hfin
    cases hfin
  have hnr : ∀ i ∈ (tasks ms ha).nodes, c i ≠ .running := fun i hi hrun => by
    have hlive := h.tracks.done_of_running (List.mem_toFinset.mp hi) hrun
    rw [← hq.known_iff, hknown] at hlive
    exact List.not_mem_nil hlive
  obtain ⟨i, hi⟩ := hsound.exists_ready hnf hnr
  obtain ⟨e, he, -, her, -⟩ := h.tracks.ready_of_able ha hi
  exact ⟨e, he, her⟩

/-- The descriptors for which a turn that begins in `s` gets events. -/
def Loop.events (s : Loop) : List Int :=
  match exec turnToPoll s with
  | (.ok true, t) => t.reported
  | _ => []

/-- A turn that adds nothing to the history has waited for clients: either nothing came, and the
counter goes up, or only measuring clients have reported, and the counter starts again. -/
theorem turn_waits {r : Round} (h : AtHead r s) {ms : List Measurement}
    (hms : parseLines r.lines = .ok ms) (hacyc : DependsAcyclic ms)
    (hable : ∀ m ∈ ms, m.Startable) (hstep : LoopStep s t) (hsame : ¬ s.Longer t) :
    t.co.trace = s.co.trace ∧ s.co.known ≠ [] ∧
      (s.co.loopsWithoutProgress ≤ maxLoopsWithoutProgress ∧
          t.co.loopsWithoutProgress = s.co.loopsWithoutProgress + 1 ∨
        s.events ≠ [] ∧ t.co.loopsWithoutProgress = 0) := by
  obtain ⟨ms', table, hl, hq, c, hc⟩ := h.reach.scheduled
  obtain rfl : ms' = ms := Except.ok.inj (hl.parsed.symm.trans hms)
  obtain ⟨u, v, w, hu, hpick, hv, hw, hend⟩ := turn_stages hstep
  have hwalk : ∀ {d : Config}, Walk (.head, s) d → d.1.Holds table d.2.co ∧
      ∃ ha : Accepted ms', ∃ c, Scheduled ms' ha d.2.co c := fun hd =>
    Walk.induction (I := fun ms _ s => ∃ ha : Accepted ms, ∃ c, Scheduled ms ha s.co c)
      (fun _ hd hm ⟨_, _, h⟩ => move_scheduled hd hm h) hl hd hq ⟨_, c, hc⟩
  have hvw : v.Extends w := extends_allows.startNew.of_exec hw
  have hwt : w.Extends t := by
    rcases hend with ht | ⟨z, hz, -, ht⟩
    · exact extends_allows.advance.of_exec ht
    · exact trans_of Loop.Extends (extends_allows.advance.of_exec hz) (keeps_pollStage.of_exec ht)
  have hvtrace : v.co.trace = s.co.trace := trace_of_not_longer hpick.extends fun hlong =>
    hsame ((hlong.extends hvw).extends hwt)
  have hsv : s.Extends v := hpick.extends
  have hknown : s.co.known ≠ [] := by
    intro hnil
    obtain ⟨hqv, ha, c', hc'⟩ := hwalk hpick
    have hqv : Quiet table v.co := hqv
    have hstatus : statusOf v.co.msms = statusOf s.co.msms :=
      congrArg Barrier.Crew.status (Coherent.crew_unique (Quiet.coherent hq) hqv.coherent hvtrace)
    have hfin : schedFinished v.co.msms = false := by
      rw [← Bool.not_eq_true, schedFinished_iff_status, hstatus, ← schedFinished_iff_status,
        hstep.1]
      decide
    have hvnil : v.co.known = [] := hqv.known_eq_nil hq hvtrace.symm hnil
    have hready := hc'.exists_ready hqv ((sound_iff ha).mpr ⟨hacyc, hable⟩) hvnil hfin
    obtain ⟨m, hm⟩ := wp_returns (wp_startNew_ready hqv.coherent.status_zero hready) hw
    have hlen := hm.length_le
    rw [List.length_append, List.length_singleton] at hlen
    have hlong : v.Longer w := hlen
    exact hsame ((hsv.longer hlong).extends hwt)
  have hgive := (wp_returns (wp_giveUp_sweep (E := fun _ _ => True) hq) hu).2.2
  have hfew : s.co.loopsWithoutProgress ≤ maxLoopsWithoutProgress := by
    by_contra hmany
    rw [if_pos (Nat.lt_of_not_le hmany)] at hgive
    obtain ⟨-, ids, hperm, hfailed⟩ := hgive
    have hlong : s.Longer u := by
      rw [Loop.Longer, hfailed.trace, List.length_append, List.length_map, hperm.length_eq]
      exact Nat.lt_add_of_pos_right (List.length_pos_of_ne_nil hknown)
    exact hsame (((hlong.extends (extends_allows.failsafeScan.of_exec hv)).extends hvw).extends hwt)
  rw [if_neg (Nat.not_lt_of_le hfew)] at hgive
  obtain rfl : s = u := hgive.symm
  have hpace : w.co.loopsWithoutProgress = s.co.loopsWithoutProgress :=
    (paced_writes.allows.startNew.of_exec hw).trans (paced_writes.allows.failsafeScan.of_exec hv)
  refine ⟨trace_of_not_longer (trans_of Loop.Extends hsv (trans_of Loop.Extends hvw hwt)) hsame,
    hknown, ?_⟩
  rcases hend with ht | ⟨z, hz, hpoll, ht⟩
  · have hlong := wp_returns (recorded_advance w) ht rfl
    exact absurd ((trans_of Loop.Extends hsv hvw).longer hlong) hsame
  · have hturn : exec turnToPoll s = (.ok true, z) := by
      simp only [turnToPoll, turnToAdvance, exec_bind, hu, hv, hw, hz]
    have hevents : s.events = z.reported := by rw [Loop.events, hturn]
    have hzpace : z.co.loopsWithoutProgress = w.co.loopsWithoutProgress :=
      paced_writes.allows.advance.of_exec hz
    rcases wp_returns wp_pollStage_paced ht with ⟨hnone, rfl⟩ | ⟨-, hloops⟩ | ⟨hsome, hloops⟩
    · obtain ⟨⟨hqz, hobserved⟩, -⟩ := hwalk hpoll
      have hztrace := trace_of_not_longer hpoll.extends hsame
      have hznil : t.co.known = [] := by
        refine List.eq_nil_iff_forall_not_mem.mpr fun m hm => ?_
        obtain ⟨x, hx, -, p, hp⟩ := hobserved m hm
        have hmem := mem_interesting hx hp
        rw [hnone] at hmem
        exact List.not_mem_nil hmem
      exact absurd (Quiet.known_eq_nil hq hqz hztrace hznil) hknown
    · exact .inl ⟨hfew, by rw [hloops, hzpace, hpace]⟩
    · exact .inr ⟨hevents ▸ hsome, hloops⟩

/-! Many turns. -/

/-- The turn adds nothing to the history, but there have been events for it: measuring clients that
are not done have reported. -/
def Reported (s t : Loop) : Prop := t.co.trace = s.co.trace ∧ s.events ≠ []

instance : Decidable (Reported s t) := inferInstanceAs (Decidable (_ ∧ _))

/-- `Turns s n l t`: `n` turns lead from `s` to `t`, and in `l` of them there have only been
reports. -/
inductive Turns (s : Loop) : ℕ → ℕ → Loop → Prop
  | refl : Turns s 0 0 s
  | tail {n l : ℕ} {t u : Loop} (h : Turns s n l t) (hstep : LoopStep t u) :
      Turns s (n + 1) (l + if Reported t u then 1 else 0) u

theorem Turns.atHead {r : Round} {n l : ℕ} (h : AtHead r s) (hrun : Turns s n l t) :
    AtHead r t := by
  induction hrun with
  | refl => exact h
  | tail _ hstep ih => exact ih.turn hstep

theorem Turns.extends {n l : ℕ} (hrun : Turns s n l t) : s.Extends t := by
  induction hrun with
  | refl => exact refl_of Loop.Extends s
  | tail _ hstep ih => exact trans_of Loop.Extends ih (keeps_mainLoopTurn.of_exec hstep.2)

theorem LoopStep.after {n : ℕ} (hfin : schedFinished (s.after n).co.msms = false)
    (hok : (exec mainLoopTurn (s.after n)).1 = .ok true) :
    LoopStep (s.after n) (s.after (n + 1)) := ⟨hfin, Prod.ext hok rfl⟩

theorem Turns.after {n : ℕ} (hn : ∀ i < n, schedFinished (s.after i).co.msms = false ∧
    (exec mainLoopTurn (s.after i)).1 = .ok true) : Turns s n
      ((List.range n).countP fun i => Reported (s.after i) (s.after (i + 1))) (s.after n) := by
  induction n with
  | zero => exact .refl
  | succ n ih =>
    obtain ⟨hfin, hok⟩ := hn n (Nat.lt_succ_self n)
    have hturns := (ih fun i hi => hn i (Nat.lt_succ_of_lt hi)).tail (.after hfin hok)
    simpa only [List.range_succ, List.countP_append, List.countP_cons, List.countP_nil,
      Nat.zero_add, decide_eq_true_eq] using hturns

section
variable {r : Round} {ms : List Measurement} {n l : ℕ}

/-- What has happened counts for twelve idle turns: the loop gives up after eleven of them. -/
theorem Turns.potential (h : AtHead r s) (hms : parseLines r.lines = .ok ms)
    (hacyc : DependsAcyclic ms) (hable : ∀ m ∈ ms, m.Startable) (hrun : Turns s n l t) :
    n + 12 * s.co.trace.length ≤
      12 * (t.co.trace.length + l) + min t.co.loopsWithoutProgress 11 := by
  induction hrun with
  | refl => omega
  | @tail n l t u hrun hstep ih =>
    by_cases hlong : t.Longer u
    · rw [Loop.Longer] at hlong
      split <;> omega
    · obtain ⟨htrace, -, hloops⟩ := turn_waits (hrun.atHead h) hms hacyc hable hstep hlong
      rw [htrace]
      rcases hloops with ⟨hfew, hnext⟩ | ⟨hevents, hzero⟩
      · rw [maxLoopsWithoutProgress] at hfew
        split <;> omega
      · rw [if_pos ⟨htrace, hevents⟩]
        omega

/-- A round does not go on forever without its clients: apart from the turns in which measuring
clients report, it takes no more turns than its schedule and its client file allow for. -/
theorem turns_bounded (h : AtHead r s) (hms : parseLines r.lines = .ok ms)
    (hacyc : DependsAcyclic ms) (hable : ∀ m ∈ ms, m.Startable) (hrun : Turns s n l t) :
    n ≤ 12 * (ms.length * (9 * s.co.metas.length + 2) + l) + 11 := by
  have hpot := hrun.potential h hms hacyc hable
  have hlen := (hrun.atHead h).reach.length_trace_le hms
  rw [length_of_extends hrun.extends] at hlen
  omega

/-- A round whose clients never answer. -/
def silentClients : Round := { twoClients with os := { twoClients.os with
  script := fun tick => { twoClients.os.script tick with ready := none } } }

def silentStart : Loop := { twoClientsStart with os := silentClients.os }

theorem twoClientsSchedule_acyclic : DependsAcyclic twoClientsSchedule := by
  intro i hi
  obtain ⟨j, ⟨m, hm, -, hj⟩, -⟩ := Relation.TransGen.head'_iff.mp hi
  rw [List.mem_singleton.mp hm] at hj
  exact List.not_mem_nil hj

theorem silent_turns : ∀ i < 12, schedFinished (silentStart.after i).co.msms = false ∧
    (exec mainLoopTurn (silentStart.after i)).1 = .ok true := by
  decide +kernel

/-- It is over after twelve turns. -/
example : schedFinished (silentStart.after 12).co.msms = true := by decide +kernel

theorem turns_bounded_silentClients : Turns silentStart 12 0 (silentStart.after 12) ∧
    12 ≤ 12 * 20 + 11 := by
  have hl := Turns.after silent_turns
  have hnone : ((List.range 12).countP fun i =>
      Reported (silentStart.after i) (silentStart.after (i + 1))) = 0 := by
    decide +kernel
  rw [hnone] at hl
  have hms : parseLines silentClients.lines = .ok twoClientsSchedule := rfl
  have hable : ∀ m ∈ twoClientsSchedule, m.Startable := by
    simp only [twoClientsSchedule, List.forall_mem_singleton]
    exact ⟨List.nodup_nil, by decide⟩
  have hbound := turns_bounded (.first rfl rfl) hms twoClientsSchedule_acyclic hable hl
  have hlen : twoClientsSchedule.length = 1 := rfl
  have hmetas : silentStart.co.metas.length = 2 := by decide +kernel
  rw [hlen, hmetas] at hbound
  exact ⟨hl, hbound⟩

/-! Nobody is left waiting. -/

def Event.isStarted : Event → Bool
  | .started _ => true
  | _ => false

/-- What may start stays so until it is started. -/
theorem Walk.ready {table : Msms} {ha : Accepted ms} {d d' : Config} {i : UInt32}
    {c : Dependency.Config UInt32} (hw : Walk d d') (hd : d.1.Holds table d.2.co)
    (hc : Scheduled ms ha d.2.co c) (hi : (tasks ms ha).Ready c i) :
    d'.1.Holds table d'.2.co ∧ ∃ c', Scheduled ms ha d'.2.co c' ∧
      ((tasks ms ha).Ready c' i ∨ .started i ∈ d'.2.co.trace) := by
  induction hw with
  | refl => exact ⟨hd, c, hc, .inl hi⟩
  | @tail d₁ d₂ _ hm ih =>
    obtain ⟨hd₁, c₁, hc₁, hi₁⟩ := ih
    obtain ⟨c₂, hstep, hc₂⟩ := (hm.effect hd₁).scheduled hd₁.coherent.1 hc₁
    refine ⟨hm.holds hd₁, c₂, hc₂, ?_⟩
    rcases hi₁ with hi₁ | hstarted
    · rcases hstep with _ | hstep
      · exact .inl hi₁
      · refine (hi₁.step hstep).imp_right fun hrun => hc₂.started i ?_
        rw [hrun]
        rintro ⟨⟩
    · have hext : d₁.2.Extends d₂.2 := hm.extends
      exact .inr (hext.trace.subset hstarted)

/-- In each turn in which `i` may be started something is started. -/
theorem turn_starts {table : Msms} {ha : Accepted ms} {i : UInt32}
    {c : Dependency.Config UInt32} (hq : Quiet table s.co) (hc : Scheduled ms ha s.co c)
    (hi : (tasks ms ha).Ready c i) (hstep : LoopStep s t) : .started i ∈ t.co.trace ∨
      s.co.trace.countP Event.isStarted < t.co.trace.countP Event.isStarted := by
  obtain ⟨u, v, w, -, hpick, -, hw, hend⟩ := turn_stages hstep
  have hvw : v.Extends w := extends_allows.startNew.of_exec hw
  have hwt : w.Extends t := by
    rcases hend with ht | ⟨z, hz, -, ht⟩
    · exact extends_allows.advance.of_exec ht
    · exact trans_of Loop.Extends (extends_allows.advance.of_exec hz) (keeps_pollStage.of_exec ht)
  obtain ⟨hqv, c', hc', hi' | hstarted⟩ := hpick.ready hq hc hi
  · refine .inr ?_
    obtain ⟨e, he, -, her, -⟩ := hc'.tracks.ready_of_able ha hi'
    have hzero := (Quiet.coherent hqv).status_zero
    obtain ⟨m, hm⟩ := wp_returns (wp_startNew_ready hzero ⟨e, he, her⟩) hw
    have hsv : s.Extends v := hpick.extends
    calc s.co.trace.countP Event.isStarted ≤ v.co.trace.countP Event.isStarted :=
          hsv.trace.sublist.countP_le
      _ < (v.co.trace ++ [Event.started m]).countP Event.isStarted := by
          rw [List.countP_append]
          exact Nat.lt_add_of_pos_right Nat.one_pos
      _ ≤ w.co.trace.countP Event.isStarted := hm.sublist.countP_le
      _ ≤ t.co.trace.countP Event.isStarted := hwt.trace.sublist.countP_le
  · exact .inl ((trans_of Loop.Extends hvw hwt).trace.subset hstarted)

/-- Each measurement of the schedule is started at most once. -/
theorem countP_started_lt {table : Msms} {s : Coord} (hl : Loaded r ms table)
    (h : Coherent table s) {i : UInt32} (hi : i ∈ ms.map Measurement.id)
    (hnot : .started i ∉ s.trace) : s.trace.countP Event.isStarted < ms.length := by
  have hstarted : ∀ e ∈ s.trace.filter Event.isStarted, e = .started e.msm := by
    intro e he
    have hkind := (List.mem_filter.mp he).2
    cases e <;> first | rfl | cases hkind
  have hids : ∀ e ∈ s.trace.filter Event.isStarted, e.msm ∈ ms.map Measurement.id := by
    intro e he
    have hmem := List.mem_map_of_mem (f := Event.abs) (List.mem_filter.mp he).1
    rw [hstarted e he] at hmem
    exact (hl.not_over_iff _).mp (Barrier.not_over_of_mem (fun _ => rfl) h.runs hmem)
  have hnd : (i :: (s.trace.filter Event.isStarted).map Event.msm).Nodup := by
    refine List.nodup_cons.mpr ⟨fun hmem => ?_, (h.trace_nodup.filter _).map_on ?_⟩
    · obtain ⟨e, he, rfl⟩ := List.mem_map.mp hmem
      exact hnot (hstarted e he ▸ (List.mem_filter.mp he).1)
    · intro e he e' he' heq
      rw [hstarted e he, hstarted e' he', heq]
  have hsub : i :: (s.trace.filter Event.isStarted).map Event.msm ⊆ ms.map Measurement.id :=
    List.cons_subset.mpr ⟨hi, fun j hj => by
      obtain ⟨e, he, rfl⟩ := List.mem_map.mp hj
      exact hids e he⟩
  have hlen := (hnd.subperm hsub).length_le
  rwa [List.length_cons, List.length_map, List.length_map, ← List.countP_eq_length_filter] at hlen

/-- A measurement may start once everything it depends on is over. -/
theorem Scheduled.ready {ha : Accepted ms} {s : Coord} {c : Dependency.Config UInt32}
    (hc : Scheduled ms ha s c) {m : Measurement} (hm : m ∈ ms) (hable : m.Startable)
    (hover : ∀ d ∈ m.depends, IsOver d s.trace) (hnot : .started m.id ∉ s.trace) :
    (tasks ms ha).Ready c m.id := by
  have hunique : ∀ m' ∈ ms, m'.id = m.id → m' = m := fun m' hm' hid =>
    List.inj_on_of_nodup_map ha.ids_nodup hm' hm hid
  refine ⟨List.mem_toFinset.mpr (List.mem_map_of_mem hm), ?_, fun m' hm' hid => ?_, ?_⟩
  · by_contra hne
    exact hnot (hc.started _ hne)
  · rwa [hunique m' hm' hid]
  · rintro d ⟨m', hm', hid, hd⟩
    rw [hunique m' hm' hid] at hd
    exact (hc.ended d).mpr (hover d hd)

/-- No measurement starves: as soon as everything it depends on is over, it is started within as
many turns as there are measurements that have not been started. -/
theorem starts_in_time (h : AtHead r s) (hms : parseLines r.lines = .ok ms) {m : Measurement}
    (hm : m ∈ ms) (hable : m.Startable)
    (hover : ∀ d ∈ m.depends, .failed d ∈ s.co.trace ∨ .succeeded d ∈ s.co.trace)
    (hrun : Turns s n l t) (hn : ms.length ≤ n + s.co.trace.countP Event.isStarted) :
    .started m.id ∈ t.co.trace := by
  obtain ⟨ms', table, hl, hq, c, hc⟩ := h.reach.scheduled
  obtain rfl : ms' = ms := Except.ok.inj (hl.parsed.symm.trans hms)
  have hid : m.id ∈ ms'.map Measurement.id := List.mem_map_of_mem hm
  by_cases hstarted : .started m.id ∈ s.co.trace
  · exact hrun.extends.trace.subset hstarted
  have hready := hc.ready hm hable hover hstarted
  have hinv : .started m.id ∈ t.co.trace ∨ (Quiet table t.co ∧
      ∃ c', Scheduled ms' hl.accepted t.co c' ∧ (tasks ms' hl.accepted).Ready c' m.id) ∧
        s.co.trace.countP Event.isStarted + n ≤ t.co.trace.countP Event.isStarted := by
    clear hn
    induction hrun with
    | refl => exact .inr ⟨⟨hq, c, hc, hready⟩, Nat.le_refl _⟩
    | @tail n l t u hrun hstep ih =>
      rcases ih with hstarted | ⟨⟨hqt, c', hc', hi⟩, hcount⟩
      · exact .inl ((keeps_mainLoopTurn.of_exec hstep.2).trace.subset hstarted)
      rcases turn_starts hqt hc' hi hstep with hstarted | hlt
      · exact .inl hstarted
      obtain ⟨hqu, c'', hc'', hi'' | hstarted⟩ := (walk_of_turn hstep).ready hqt hc' hi
      · exact .inr ⟨⟨hqu, c'', hc'', hi''⟩, by omega⟩
      · exact .inl hstarted
  rcases hinv with hstarted | ⟨⟨hqt, -⟩, hcount⟩
  · exact hstarted
  · by_contra hnot
    have hlt := countP_started_lt hl hqt.coherent hid hnot
    omega

/-- The first measurement of the example is over after five turns, and the second one is started in
the sixth. -/
theorem starts_in_time_chain : .started 2 ∈ (chainStart.after 6).co.trace := by
  have hms : parseLines chainRound.lines = .ok chainRoundSchedule := rfl
  have hstep : LoopStep (chainStart.after 5) (chainStart.after 6) :=
    .after (by decide +kernel) (by decide +kernel)
  have hm : (⟨2, "BB".toList, 30, .waiting, [⟨"m".toList, 10, 1⟩], [1], [], 0⟩ : Measurement) ∈
      chainRoundSchedule := List.mem_append_right _ (List.mem_singleton.mpr rfl)
  refine starts_in_time (chain_atHead (by decide)) hms hm ⟨by decide, by decide⟩ ?_
    (Turns.refl.tail hstep) (by decide +kernel)
  have hover : .succeeded 1 ∈ (chainStart.after 5).co.trace := by decide +kernel
  exact fun d hd => List.mem_singleton.mp hd ▸ .inr hover

end
end
end Flashflow
