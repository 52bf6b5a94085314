import Flashflow.Library.Deadline
import Flashflow.Loop.Background
import Flashflow.Loop.Failsafe
import Flashflow.Loop.Progress

/-! Every round ends, whatever its clients do: the clock goes on, and no measurement outlives its
failsafe time. -/
namespace Flashflow
open Sched Program Outcome

/-! When the failsafe times were set. -/

/-- The failsafe time of everything in progress was set to one and a half durations after the clock
of some answer up to the `k`-th. -/
def Dated (script : ℕ → Answer) (k : ℕ) (s : Msms) : Prop :=
  ∀ i e, s.get? i = some e → e.state = .inProgress →
    ∃ j ≤ k, e.failsafeStop.toNat = (script j).now.secs.toNat + 3 * e.dur.toNat / 2

section
variable {script : ℕ → Answer} {k l : ℕ} {a b : Msms}

theorem Dated.mono (h : Dated script k a) (hkl : k ≤ l) : Dated script l a := by
  intro i e he hst
  obtain ⟨j, hj, hstop⟩ := h i e he hst
  exact ⟨j, hj.trans hkl, hstop⟩

/-- One failsafe time is set now. -/
theorem Dated.update (h : Dated script k a) {id : UInt32} {m : Measurement} {stop : UInt64}
    {f : Measurement → Measurement} (hf : ∀ m, (f m).id = m.id) (hget : a.get? id = some m)
    (hstop : failsafeStop (script k).now m.dur = .ok stop) (hset : (f m).failsafeStop = stop)
    (hdur : (f m).dur = m.dur) : Dated script k (a.update id f hf) := by
  intro i e he hst
  rw [Msms.get?_update] at he
  split at he
  next hi =>
    rw [hi, hget, Option.map_some] at he
    obtain rfl := Option.some.inj he
    exact ⟨k, le_rfl, by rw [hset, hdur, failsafeStop_value hstop]⟩
  next => exact h i e he hst

theorem Dated.markDone (h : Dated script k a) {id : UInt32} (hdone : schedMarkDone id a = .ok b) :
    Dated script k b := by
  obtain ⟨m, -, -, rfl⟩ := schedMarkDone_ok hdone
  intro i e he hst
  rw [Msms.noteDone, Msms.get?_mapValues, Msms.get?_update] at he
  obtain ⟨e₀, he₀, rfl⟩ := Option.map_eq_some_iff.mp he
  have hsame : (e₀.noteDone id).failsafeStop = e₀.failsafeStop ∧
      (e₀.noteDone id).dur = e₀.dur := by
    unfold Measurement.noteDone
    split <;> exact ⟨rfl, rfl⟩
  rw [hsame.1, hsame.2]
  rw [Measurement.noteDone_state] at hst
  split at he₀
  · obtain ⟨e₁, -, rfl⟩ := Option.map_eq_some_iff.mp he₀
    cases hst
  · exact h i e₀ he₀ hst

theorem Effect.dated {begun : UInt32 → Prop} {s t : Coord} (h : Effect begun (script k) s t)
    (hs : Dated script k s.msms) : Dated script k t.msms := by
  cases h with
  | still _ hmsms => exact hmsms ▸ hs
  | picks _ hnext ht =>
    subst ht
    rcases schedNext_ok hnext with ⟨-, rfl, -⟩ | ⟨m, stop, hget, -, hstop, rfl⟩
    · exact hs
    · exact hs.update (fun x => x.begin_id stop) hget hstop rfl rfl
  | claims _ _ _ ht | enters _ ht | sends _ _ _ ht | confirms _ _ ht =>
    subst ht
    exact hs
  | resets _ _ hreset ht =>
    subst ht
    unfold schedResetFailsafeStop at hreset
    split at hreset
    · cases hreset
    next m hget =>
      simp only [bind_eq_ok, pure_eq_ok] at hreset
      obtain ⟨stop, hstop, rfl⟩ := hreset
      exact hs.update (fun x => x.resetStop_id stop) hget hstop rfl rfl
  | ends _ hdone => exact hs.markDone hdone

end

theorem Move.later {d d' : Config} (h : Move d d') : d.2.Later d'.2 :=
  later_writes.move h fun _ _ _ => ⟨rfl, le_rfl⟩

theorem Walk.later {d d' : Config} (h : Walk d d') : d.2.Later d'.2 := by
  induction h with
  | refl => exact refl_of Loop.Later d.2
  | tail _ hm ih => exact trans_of Loop.Later ih hm.later

section
variable {r : Round} {ms : List Measurement} {table : Msms} {s t : Loop} {i j n : ℕ} {m : UInt32}
  {q : MsmParams}

/-- In every run all failsafe times are those of clocks in the past. -/
theorem AtHead.dated (h : AtHead r s) : ∃ ms table, Loaded r ms table ∧ Quiet table s.co ∧
    s.os.script = r.os.script ∧ Dated r.os.script s.os.tick s.co.msms := by
  refine AtHead.induction (I := fun _ _ s => s.os.script = r.os.script ∧
    Dated r.os.script s.os.tick s.co.msms) (fun hs hl => ?_) ?_ h
  · refine ⟨congrArg Os.script (Round.start_os hs).1, fun i e he hst => ?_⟩
    have hmem := (Msms.get?_eq_some_iff.mp he).1
    obtain ⟨m, -, -, -, hstatus, -⟩ := hl.tracks.origin hmem (by rw [hst]; rintro ⟨⟩)
    rw [hst] at hstatus
    cases hstatus
  · rintro ms table d d' - hd hm ⟨hscript, hdated⟩
    have hlater := hm.later
    have heffect := hm.effect hd
    rw [hscript] at heffect
    exact ⟨hlater.script.trans hscript, (heffect.dated hdated).mono hlater.tick⟩

/-! Turns in which nothing happens. -/

theorem longer_of_failing {next : Point} {d : Config} (hw : Walk (.failing m next, s) d)
    (hne : ∀ m next, d.1 ≠ .failing m next) : s.Longer d.2 := by
  rcases hw.cases_head with rfl | ⟨c, hm, hrest⟩
  · exact absurd rfl (hne m next)
  cases hm with
  | fails hx =>
    have hfail : Recorded (fun _ : Unit => True) (do
        measurementFailed m
        countFailed) :=
      recorded_stage (recorded_measurementFailed m) (extends_allows.measurementFailed m)
        (fun _ _ => extends_allows.countFailed) fun _ h => absurd trivial h
    have hlong : s.Longer _ := wp_returns (hfail s) hx trivial
    exact hlong.extends (Walk.extends hrest)

/-- A client that is told to measure is in the history. -/
theorem started_longer (h : (Point.start i m j n q).Holds table s.co) {n' : ℕ}
    (hr : exec (startTurn m q.dur j n) s = (.ok (.next n'), t)) : n' = n ∨ s.Longer t := by
  obtain ⟨e, s₀, hpass, -⟩ := h
  rcases startTurn_ok hr with ⟨hn, -⟩ | ⟨x, hx, hcur, hrun⟩
  · exact .inl (Turn.next.inj hn)
  · have hst : x.state = Phase.measure.before := by
      simpa using hpass.passing.states j x hx hcur
    have ht := wp_returns (command_co (sends_measure q.dur) hx hst) hrun
    rw [Loop.Longer, ht, if_pos rfl, Coord.move, List.length_append]
    exact .inr (Nat.lt_succ_self _)

/-- Where the measuring begins somebody is told, or the measurement is failed. -/
theorem longer_of_start {d : Config} (hw : Walk d (.head, t)) (hd : d.1.Holds table d.2.co)
    (hstart : ∃ j n, d.1 = .start i m j n q ∧ n = 0) : d.2.Longer t := by
  induction hw using Relation.ReflTransGen.head_induction_on with
  | refl =>
    obtain ⟨j, n, hj, -⟩ := hstart
    cases hj
  | @head d d' hm hrest ih =>
    obtain ⟨j, n, hj, hn⟩ := hstart
    obtain ⟨p, s⟩ := d
    obtain rfl : p = .start i m j n q := hj
    have hd' := hm.holds hd
    cases hm with
    | @started _ _ _ _ n' _ _ u hlt hr =>
      rcases started_longer hd hr with rfl | hlong
      · have hext := (extends_allows.startTurn m q.dur j n').of_exec hr
        exact hext.longer (ih hd' ⟨j + 1, n', rfl, hn⟩)
      · exact hlong.extends (Walk.extends hrest)
    | unstarted hlt hr =>
      have hlong := longer_of_failing hrest fun _ _ => by rintro ⟨⟩
      exact ((extends_allows.startTurn m q.dur j n).of_exec hr).longer hlong
    | allStarted =>
      -- the measurement has clients, so somebody has been told
      obtain ⟨e, s₀, hpass, -, -, htold⟩ := hd
      have hall : s.co.metas.length = s₀.metas.length := hpass.passing.length
      rw [hn, hall, seen_all, hpass.hired.classes.length_eq, List.length_map] at htold
      exact absurd (List.eq_nil_of_length_eq_zero htold.symm) hpass.hired.hosts

/-- A turn that adds nothing to the history leaves the table alone. -/
theorem same_table (hq : Quiet table s.co) (hw : Walk (.head, s) (.head, t))
    (hsame : ¬ s.Longer t) : t.co.msms = s.co.msms := by
  have hinit : ∀ d, Walk (.head, s) d → Walk d (.head, t) →
      d.1.Holds table d.2.co ∧ d.2.co.msms = s.co.msms := by
    intro d hd
    induction hd with
    | refl => exact fun _ => ⟨hq, rfl⟩
    | @tail d d' hsd hm ih =>
      intro hrest
      obtain ⟨hholds, hmsms⟩ := ih (.head hm hrest)
      have hholds' := hm.holds hholds
      refine ⟨hholds', ?_⟩
      have hstill : ¬ d.2.Longer d'.2 := fun hlong =>
        hsame (((Walk.extends hsd).longer hlong).extends (Walk.extends hrest))
      have hgrows : ∀ {e : Event}, d'.2.co.trace ≠ d.2.co.trace ++ [e] := fun htrace =>
        hstill (by rw [Loop.Longer, htrace, List.length_append]; exact Nat.lt_succ_self _)
      cases hm.effect hholds with
      | still _ hsame => exact hsame.trans hmsms
      | enters _ ht =>
        rw [ht]
        exact hmsms
      | resets _ hbegun _ _ =>
        obtain ⟨i, q, hp⟩ := hbegun
        have hlong := longer_of_start hrest hholds' ⟨0, 0, hp, rfl⟩
        exact absurd ((Walk.extends (hsd.tail hm)).longer hlong) hsame
      | picks _ _ ht | claims _ _ _ ht | sends _ _ _ ht | confirms _ _ ht =>
        exact absurd (congrArg Coord.trace ht) hgrows
      | ends _ _ _ _ htrace => exact absurd htrace hgrows
  exact (hinit _ hw .refl).2

/-- A turn that comes back to the head, in two parts. -/
theorem turn_walks (h : LoopStep s t) :
    ∃ v, Walk (.head, s) (.pick, v) ∧ Walk (.pick, v) (.head, t) := by
  refine wp_returns (Q := fun ok t => ok = true →
    ∃ v, Walk (.head, s) (.pick, v) ∧ Walk (.pick, v) (.head, t)) (E := fun _ _ => True) ?_ h.2 rfl
  rw [mainLoopTurn, wp_bind]
  apply wp_conseq (walk_giveUp h.1)
  intro _ u hscan
  rw [wp_bind]
  apply wp_conseq (walk_failsafeScan hscan)
  intro _ v hpick
  rw [wp_bind]
  apply wp_conseq (walk_startNew (.refl : Walk (.pick, v) (.pick, v)))
  intro _ w hadvance
  rw [wp_bind]
  apply wp_conseq (walk_advance hadvance)
  rintro (_ | _) z hz
  · exact fun _ => ⟨v, hpick, hz⟩
  · exact wp_conseq (walk_pollStage hz) fun ok t ht hok => ⟨v, hpick, ht hok⟩

/-- If something is known and nothing happens, the clock is read for it and it is not yet late. -/
theorem scan_in_time {v : Loop} (hw : Walk (.head, s) (.pick, v)) (hsame : ¬ s.Longer v)
    (hknown : s.co.known ≠ []) : s.os.tick < v.os.tick ∧
      ∃ m ∈ s.co.known, ∃ stop now, s.co.msms.stopOf m = some stop ∧
        (s.os.script s.os.tick).time = some now ∧ ¬ now.tvSec.toUInt64 > stop := by
  have hpicked : ∀ m next, (Point.pick, v).1 ≠ .failing m next := fun _ _ => by rintro ⟨⟩
  rcases hw.cases_head with heq | ⟨d, hm, hrest⟩
  · cases heq
  cases hm with
  | overdue =>
    rcases hrest.cases_head with heq | ⟨d, hm, hrest⟩
    · cases heq
    cases hm with
    | drop => exact absurd (longer_of_failing hrest hpicked) hsame
    | dropped hnone => exact absurd (List.getLast?_eq_none_iff.mp hnone) hknown
  | enter =>
    rcases hrest.cases_head with heq | ⟨d, hm, hrest'⟩
    · cases heq
    cases hm with
    | scanned hnone =>
      rw [← List.head?_eq_getElem?, List.head?_eq_none_iff] at hnone
      exact absurd hnone hknown
    | @late _ m p a now _ s' u hi hp ha hnow hlate =>
      have hext : s.Extends u :=
        trans_of Loop.Extends ((keeps_assertFillParams m).of_exec hp) (keeps_answer.of_exec ha)
      exact absurd (hext.longer (longer_of_failing hrest' hpicked)) hsame
    | @inTime _ m p a now _ s' u hi hp ha hnow hearly =>
      obtain ⟨hstop, heq⟩ := assertFillParams_stopOf hp
      obtain ⟨rfl, -⟩ := answer_ok ha
      have htick : s'.os.tick + 1 = u.os.tick :=
        congrArg (fun t : Loop => t.os.tick) (Prod.mk.inj ha).2
      subst heq
      refine ⟨?_, m, List.mem_of_getElem? hi, _, now, hstop, hnow, hearly⟩
      calc s'.os.tick < u.os.tick := htick ▸ Nat.lt_succ_self _
        _ ≤ v.os.tick := (Walk.later hrest').tick

/-! The clock. -/

/-- Of the answers that the round takes from outside, any two that are `K` apart are more than
`secs` seconds apart. -/
def ClockGains (r : Round) (K secs : ℕ) : Prop :=
  ∀ t, AtHead r t → ∀ i j, i + K ≤ j → j < t.os.tick → ∀ now, (r.os.script j).time = some now →
    (r.os.script i).now.secs.toNat + secs < now.tvSec.toUInt64.toNat

/-- Within `K` answers the clock passes all failsafe times that were set before. -/
def ClockAdvances (r : Round) (ms : List Measurement) (K : ℕ) : Prop :=
  ∀ m ∈ ms, ClockGains r K (3 * m.dur.toNat / 2)

/-- A known measurement that is not late has been dated lately. -/
theorem Dated.early {k K : ℕ} {now : Timeval} {stop : UInt64} (hl : Loaded r ms table)
    (hq : Quiet table s.co) (hdated : Dated r.os.script k s.co.msms)
    (hclock : ClockAdvances r ms K) (ht : AtHead r t) (hn : n < t.os.tick) (hm : m ∈ s.co.known)
    (hstop : s.co.msms.stopOf m = some stop) (hnow : (r.os.script n).time = some now)
    (hearly : ¬ now.tvSec.toUInt64 > stop) : n < k + K := by
  by_contra hlong
  obtain ⟨e, he, hst⟩ := Option.map_eq_some_iff.mp ((hq.known_iff m).mp hm)
  obtain ⟨j, hj, hset⟩ := hdated m e he hst
  obtain ⟨m', hm', hplan⟩ := Coherent.in_schedule hl hq.coherent he (by rw [hst]; rintro ⟨⟩)
  have hpast := hclock m' hm' t ht j n (by omega) hn now hnow
  rw [← dur_of_plan hplan, ← hset] at hpast
  obtain rfl : e.failsafeStop = stop := by simpa [Msms.stopOf, he] using hstop
  exact hearly (UInt64.lt_iff_toNat_lt.mpr hpast)

/-- What `Deadline.Waits` is about here: the history is what counts. -/
abbrev Loop.Waits (script : ℕ → Answer) (K : ℕ) (s t : Loop) : Prop :=
  Deadline.Waits (fun s : Loop => s.co.trace.length) (fun s => s.os.tick)
    (fun k s => Dated script k s.co.msms) K s t

theorem waits_of_silent {K : ℕ} (h : AtHead r s) (hms : parseLines r.lines = .ok ms)
    (hacyc : DependsAcyclic ms) (hable : ∀ m ∈ ms, m.Startable)
    (hclock : ClockAdvances r ms K) (hstep : LoopStep s t) (hsame : ¬ s.Longer t) :
    s.Waits r.os.script K t := by
  obtain ⟨ms', table, hl, hq, hscript, -⟩ := h.dated
  obtain rfl : ms' = ms := Except.ok.inj (hl.parsed.symm.trans hms)
  obtain ⟨htrace, hknown, -⟩ := turn_waits h hms hacyc hable hstep hsame
  obtain ⟨v, hpick, hrest⟩ := turn_walks hstep
  obtain ⟨hlt, m, hm, stop, now, hstop, hnow, hearly⟩ := scan_in_time hpick
    (fun hlong => hsame (hlong.extends (Walk.extends hrest))) hknown
  rw [hscript] at hnow
  have htick : s.os.tick < t.os.tick := Nat.lt_of_lt_of_le hlt (Walk.later hrest).tick
  refine ⟨congrArg List.length htrace, htick, fun k hk => ?_,
    fun k hk => hk.early hl hq hclock (h.turn hstep) htick hm hstop hnow hearly⟩
  exact same_table hq (hpick.trans hrest) hsame ▸ hk

theorem turns_bounded_by_clock {f : ℕ → Loop} {K : ℕ} (h : AtHead r (f 0))
    (hms : parseLines r.lines = .ok ms) (hacyc : DependsAcyclic ms)
    (hable : ∀ m ∈ ms, m.Startable) (hclock : ClockAdvances r ms K)
    (hf : ∀ i < n, LoopStep (f i) (f (i + 1))) :
    n ≤ (K + 1) * (ms.length * (9 * (f 0).co.metas.length + 2)) + K := by
  have hrun : ∀ i ≤ n, AtHead r (f i) ∧ (f 0).Extends (f i) := by
    intro i hi
    induction i with
    | zero => exact ⟨h, refl_of Loop.Extends _⟩
    | succ i ih =>
      obtain ⟨hhead, hext⟩ := ih (Nat.le_of_succ_le hi)
      exact ⟨hhead.turn (hf i hi),
        trans_of Loop.Extends hext (keeps_mainLoopTurn.of_exec (hf i hi).2)⟩
  have hstep : ∀ i < n, (f i).Waits r.os.script K (f (i + 1)) ∨ (f i).Longer (f (i + 1)) := by
    intro i hi
    by_cases hlong : (f i).Longer (f (i + 1))
    · exact .inr hlong
    · have hhead := (hrun i (Nat.le_of_lt hi)).1
      exact .inl (waits_of_silent hhead hms hacyc hable hclock (hf i hi) hlong)
  have hset : ∀ i ≤ n, Dated r.os.script (f i).os.tick (f i).co.msms := by
    intro i hi
    obtain ⟨-, -, -, -, -, hdated⟩ := (hrun i hi).1.dated
    exact hdated
  have hcount := Deadline.steps_bounded hset hstep
  have hlen := (hrun n le_rfl).1.reach.length_trace_le hms
  rw [length_of_extends (hrun n le_rfl).2] at hlen
  have hmul := Nat.mul_le_mul_left (K + 1) hlen
  omega

/-- When nothing is left to do each measurement of the schedule has been given up or has
succeeded. -/
theorem AtHead.all_over (h : AtHead r s) (hms : parseLines r.lines = .ok ms)
    (hfin : schedFinished s.co.msms = true) :
    ∀ m ∈ ms, .failed m.id ∈ s.co.trace ∨ .succeeded m.id ∈ s.co.trace := by
  obtain ⟨ms', table, hl, -, c, hc⟩ := h.reach.scheduled
  obtain rfl : ms' = ms := Except.ok.inj (hl.parsed.symm.trans hms)
  intro m hm
  have hover := (hc.tracks.finished_iff hl.accepted).mp hfin
  exact (hc.ended m.id).mp (hover m.id (List.mem_toFinset.mpr (List.mem_map_of_mem hm)))

/-! The whole loop. -/

/-- `while (!sched_finished())`, for at most `n` turns; `none` is `return -1`. -/
def mainLoop : ℕ → Loop → Except Abort (Option Loop)
  | 0, s => if schedFinished s.co.msms then pure (some s) else .error .diverges
  | n + 1, s =>
    if schedFinished s.co.msms then pure (some s)
    else
      match exec mainLoopTurn s with
      | (.error e, _) => .error e
      | (.ok false, _) => pure none
      | (.ok true, t) => mainLoop n t

/-- The loop comes to its end, or a turn is aborted, or the turns run out, and then there have been
that many of them. -/
theorem mainLoop_cases (h : AtHead r s) (n : ℕ) :
    (∃ t, mainLoop n s = .ok (some t) ∧ AtHead r t ∧ schedFinished t.co.msms = true) ∨
      (∃ e u t, mainLoop n s = .error e ∧ AtHead r u ∧ exec mainLoopTurn u = (.error e, t)) ∨
      mainLoop n s = .error .diverges ∧
        ∃ f : ℕ → Loop, f 0 = s ∧ ∀ i < n, LoopStep (f i) (f (i + 1)) := by
  induction n generalizing s with
  | zero =>
    unfold mainLoop
    split
    next hfin => exact .inl ⟨s, rfl, h, hfin⟩
    next => exact .inr (.inr ⟨rfl, fun _ => s, rfl, fun i hi => absurd hi (Nat.not_lt_zero i)⟩)
  | succ n ih =>
    unfold mainLoop
    split
    next hfin => exact .inl ⟨s, rfl, h, hfin⟩
    next hfin =>
      obtain ⟨-, table, -, hq⟩ := h.quiet
      split
      next e t hx => exact .inr (.inl ⟨e, s, t, rfl, h, hx⟩)
      next t hx => cases (wp_returns (wp_mainLoopTurn hq) hx).1
      next t hx =>
        have hstep : LoopStep s t := ⟨Bool.eq_false_of_not_eq_true hfin, hx⟩
        refine (ih (h.turn hstep)).imp_right (Or.imp_right ?_)
        rintro ⟨hdiv, f, rfl, hf⟩
        refine ⟨hdiv, fun i => i.casesOn s f, rfl, fun i hi => ?_⟩
        cases i with
        | zero => exact hstep
        | succ i => exact hf i (Nat.lt_of_succ_lt_succ hi)

theorem mainLoop_ok (h : AtHead r s) (hok : mainLoop n s = .ok (some t)) :
    AtHead r t ∧ schedFinished t.co.msms = true := by
  rcases mainLoop_cases h n with ⟨u, hu, hend⟩ | ⟨e, -, -, he, -⟩ | ⟨hdiv, -⟩
  · rw [hu] at hok
    cases hok
    exact hend
  · rw [he] at hok
    cases hok
  · rw [hdiv] at hok
    cases hok

/-- What may end a turn of the round early: the assertions about background clients and about the
clock, a handler that runs out of its buffer, and a name that cannot become a C string. The clock
and the handler have failed on the answer taken last. -/
def Interrupts (r : Round) (ms : List Measurement) (e : Abort) : Prop :=
  ∃ s t, AtHead r s ∧ exec mainLoopTurn s = (.error e, t) ∧ match e with
    | .assertBgConns => ∃ m ∈ ms, ∃ host ∈ m.hosts, BgClass (utf8 host.cls) ∧ host.conns ≠ 1
    | .assertGettimeofday => ∃ k, t.os.tick = k + 1 ∧ (r.os.script k).time = none
    | .outOfBounds => ∃ k, t.os.tick = k + 1 ∧ (r.os.script k).Overruns
    | .panic .interiorNul => ∃ m ∈ ms, ¬ m.NulFree
    | _ => False

theorem interrupts_of_aborted {e : Abort} (h : AtHead r s) (hms : parseLines r.lines = .ok ms)
    (hable : ∀ m ∈ ms, m.Startable) (hex : exec mainLoopTurn s = (.error e, t)) :
    Interrupts r ms e := by
  refine ⟨s, t, h, hex, ?_⟩
  obtain ⟨ms', table, hl, hq, hscript, -⟩ := h.dated
  obtain rfl : ms' = ms := Except.ok.inj (hl.parsed.symm.trans hms)
  have hgood := (wp_aborts (wp_mainLoopTurn hq) hex).benign
  have hlater := (later_writes.mainLoopTurn fun _ _ => ⟨rfl, le_rfl⟩).of_exec hex
  unfold Benign at hgood
  rw [hlater.script, hscript] at hgood
  split at hgood
  · obtain ⟨xs, hxs, -⟩ := h.who
    obtain ⟨x, -, hbg, m, hm, host, hhost, hcls, hconns⟩ :=
      h.wrong_conns hxs hms (congrArg Prod.fst hex)
    exact ⟨m, hm, host, hhost, hcls ▸ hbg, hconns⟩
  · exact hgood
  · exact hgood
  · obtain ⟨m, hm, hst, hlong⟩ := hgood
    obtain ⟨m₀, hm₀, -, hplan, -⟩ := hl.tracks.origin hm hst
    exact absurd (dur_of_plan hplan ▸ (hable m₀ hm₀).2) hlong
  · obtain ⟨m, hm, hst, hnul⟩ := hgood
    obtain ⟨m₀, hm₀, -, hplan, -⟩ := hl.tracks.origin hm hst
    exact ⟨m₀, hm₀, fun hfree => hnul (nulFree_of_plan hplan hfree)⟩
  · exact hgood.elim

/-- Nothing interrupts a round with usable names, one connection for each host of a background
class, a clock that works, and replies that fit. -/
theorem not_interrupts {e : Abort} (hnul : ∀ m ∈ ms, m.NulFree)
    (hbg : ∀ m ∈ ms, ∀ host ∈ m.hosts, BgClass (utf8 host.cls) → host.conns = 1)
    (htime : ∀ k, (r.os.script k).time ≠ none) (hfit : ∀ k, ¬ (r.os.script k).Overruns) :
    ¬ Interrupts r ms e := by
  rintro ⟨s, t, -, -, hcause⟩
  split at hcause
  · obtain ⟨m, hm, host, hhost, hcls, hconns⟩ := hcause
    exact hconns (hbg m hm host hhost hcls)
  · obtain ⟨k, -, hnone⟩ := hcause
    exact htime k hnone
  · obtain ⟨k, -, hover⟩ := hcause
    exact hfit k hover
  · obtain ⟨m, hm, hno⟩ := hcause
    exact hno (hnul m hm)
  · exact hcause

/-! A round whose clients report for ever. -/

/-- A clock that goes on by a second for each answer. -/
def ticking (tick : ℕ) : EpochSecs where
  secs := .ofNat (tick % 2 ^ 63)
  bound := by
    rw [UInt64.toNat_ofNat_of_lt'] <;> have h := Nat.mod_lt tick (Nat.two_pow_pos 63)
    · exact h
    · exact Nat.lt_trans h (by decide)

theorem ticking_secs (h : n < 2 ^ 63) : (ticking n).secs.toNat = n := by
  change (UInt64.ofNat (n % 2 ^ 63)).toNat = n
  rw [Nat.mod_eq_of_lt h]
  exact UInt64.toNat_ofNat_of_lt' (Nat.lt_trans h (by decide))

theorem later_after (s : Loop) (hij : i ≤ j) : (s.after i).Later (s.after j) := by
  induction hij with
  | refl => exact refl_of Loop.Later _
  | step _ ih =>
    exact trans_of Loop.Later ih (later_writes.mainLoopTurn (fun _ _ => ⟨rfl, le_rfl⟩) _)

/-- A round that is over after `n` turns takes no answers after that. -/
theorem AtHead.tick_le (h : AtHead r t) (hs : r.start = .ok (some s))
    (hfin : schedFinished (s.after n).co.msms = true) : t.os.tick ≤ (s.after n).os.tick := by
  obtain ⟨k, rfl, hk⟩ := h.eq_after hs
  refine (later_after s (Nat.le_of_not_lt fun hlt => ?_)).tick
  rw [hk n hlt] at hfin
  cases hfin

theorem ticking_gains {secs : ℕ} (hnow : ∀ k, (r.os.script k).now = ticking k)
    (htime : ∀ k, (r.os.script k).time.map Timeval.tvSec = some (ticking k).secs.toInt64)
    (hticks : ∀ t, AtHead r t → t.os.tick < 2 ^ 63) : ClockGains r (secs + 1) secs := by
  intro t ht i j hij hj now htimej
  have hlt := Nat.lt_trans hj (hticks t ht)
  have hsec : now.tvSec = (ticking j).secs.toInt64 := by simpa [htimej] using htime j
  rw [hnow, hsec, UInt64.toUInt64_toInt64, ticking_secs hlt, ticking_secs (by omega)]
  omega

def talkingClients : Round := { twoClients with os := { twoClients.os with
  script := fun tick => { twoClients.os.script tick with
    now := ticking tick
    time := some ⟨(ticking tick).secs.toInt64, ⟨0, by decide⟩⟩
    recv := some (if tick = 13 ∨ tick = 14 then bytes "250 SPEEDTESTING"
      else bytes "250 OK") } } }

def talkingStart : Loop := { twoClientsStart with os := talkingClients.os }

/-- Its clock stops it in the thirteenth turn. -/
example : (mainLoop 13 talkingStart).isOk = true := by decide +kernel

theorem not_interrupts_talkingClients {e : Abort} :
    ¬ Interrupts talkingClients twoClientsSchedule e := by
  refine not_interrupts twoClientsSchedule_nulFree (by decide +kernel) (fun k => ?_) fun k => ?_
  · simp [talkingClients]
  · rintro ⟨got, hgot, hover⟩
    obtain rfl := Option.some.inj hgot
    split at hover <;> revert hover <;> decide +kernel

end
end Flashflow
