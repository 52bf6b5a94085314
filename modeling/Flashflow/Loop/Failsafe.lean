import Flashflow.Loop.Points

/-! The failsafe time of a measurement: `sched_next` and `sched_reset_failsafe_stop` set it, other
calls of the library keep it, and the main loop compares it with the clock. -/
namespace Flashflow
open Sched Program Outcome Iteration LabelledRun

namespace Sched

/-- The calls that change the table. -/
inductive TableCall where
  | next (rank : UInt32 → ℕ) (now : EpochSecs)
  | markDone (id : UInt32)
  | resetFailsafeStop (now : EpochSecs) (id : UInt32)

def TableCall.run : TableCall → Msms → Except Panic Msms
  | .next rank now, s => (schedNext rank now s).map Prod.snd
  | .markDone id, s => schedMarkDone id s
  | .resetFailsafeStop now id, s => schedResetFailsafeStop now id s

/-- The call sets the failsafe time of the entry `e`, at the clock value `now`. -/
def TableCall.Sets (s : Msms) (e : Measurement) (now : EpochSecs) : TableCall → Prop
  | .next rank now' =>
    now' = now ∧ (ranked rank Measurement.id s.entries).find? Measurement.ready = some e
  | .markDone _ => False
  | .resetFailsafeStop now' id => now' = now ∧ s.get? id = some e

/-- A call that does not set the failsafe time of `id`. -/
def Unset (id : UInt32) (s : Msms) (call : TableCall) (t : Msms) : Prop :=
  call.run s = .ok t ∧ ∀ e now, call.Sets s e now → e.id ≠ id

theorem failsafeStop_value {now : EpochSecs} {dur : UInt32} {stop : UInt64}
    (h : failsafeStop now dur = .ok stop) :
    stop.toNat = now.secs.toNat + 3 * dur.toNat / 2 := by
  have hdur : 3 * dur.toNat < 2 ^ 32 := (failsafeStop_ok_iff now dur).mp ⟨stop, h⟩
  have hb := now.bound
  simp only [failsafeStop, bind_eq_ok, u32Mul, u64Add] at h
  obtain ⟨p, hp, h⟩ := h
  rw [if_pos (by simpa using hdur)] at hp
  obtain rfl := Except.ok.inj hp
  have hhalf : ((3 * dur / 2).toUInt64).toNat = 3 * dur.toNat / 2 := by
    have hmul : (3 * dur).toNat = 3 * dur.toNat := by
      rw [UInt32.toNat_mul]
      exact Nat.mod_eq_of_lt hdur
    rw [UInt32.toNat_toUInt64, UInt32.toNat_div, hmul]
    rfl
  rw [if_pos (by omega)] at h
  obtain rfl := Except.ok.inj h
  rw [UInt64.toNat_add, hhalf, Nat.mod_eq_of_lt (by omega)]

/-- A call that sets the failsafe time does it if and only if `3 * dur` fits. -/
theorem TableCall.Sets.run {s : Msms} {e : Measurement} {now : EpochSecs} {call : TableCall}
    (h : call.Sets s e now) :
    (call.run s = .error .overflow ∧ ¬ 3 * e.dur.toNat < 2 ^ 32) ∨
      (3 * e.dur.toNat < 2 ^ 32 ∧ ∃ t e', call.run s = .ok t ∧ t.get? e.id = some e' ∧
        e'.failsafeStop.toNat = now.secs.toNat + 3 * e.dur.toNat / 2) := by
  cases hstop : failsafeStop now e.dur with
  | error p =>
    obtain ⟨rfl, hlt⟩ := failsafeStop_error hstop
    refine .inl ⟨?_, hlt⟩
    cases call with
    | next rank now' =>
      obtain ⟨rfl, hfind⟩ := h
      simp [TableCall.run, schedNext, schedNextInternal, hfind, hstop, bind, Except.bind,
        Except.map]
    | markDone id => exact h.elim
    | resetFailsafeStop now' id =>
      obtain ⟨rfl, hget⟩ := h
      simp [TableCall.run, schedResetFailsafeStop, hget, hstop, bind, Except.bind]
  | ok stop =>
    have hvalue := failsafeStop_value hstop
    refine .inr ⟨(failsafeStop_ok_iff now e.dur).mp ⟨stop, hstop⟩, ?_⟩
    cases call with
    | next rank now' =>
      obtain ⟨rfl, hfind⟩ := h
      have hget : s.get? e.id = some e :=
        Msms.get?_eq_some_iff.mpr ⟨(find?_ranked_some hfind).1, rfl⟩
      refine ⟨s.update e.id (fun x => x.begin stop) (fun x => x.begin_id stop), e.begin stop, ?_,
        ?_, hvalue⟩
      · simp [TableCall.run, schedNext, schedNextInternal, hfind, hstop, bind, Except.bind, pure,
          Except.pure, Except.map]
      · rw [Msms.get?_update, if_pos rfl, hget, Option.map_some]
    | markDone id => exact h.elim
    | resetFailsafeStop now' id =>
      obtain ⟨rfl, hget⟩ := h
      have hid := Msms.get?_id hget
      refine ⟨s.update id (fun x => x.resetStop stop) (fun x => x.resetStop_id stop),
        e.resetStop stop, ?_, ?_, hvalue⟩
      · simp [TableCall.run, schedResetFailsafeStop, hget, hstop, bind, Except.bind, pure,
          Except.pure]
      · rw [Msms.get?_update, if_pos hid, hid, hget, Option.map_some]

/-- The failsafe time of an entry. -/
def Msms.stopOf (s : Msms) (id : UInt32) : Option UInt64 :=
  (s.get? id).map Measurement.failsafeStop

theorem Msms.stopOf_update_ne {s : Msms} {id i : UInt32} {f : Measurement → Measurement}
    (hf : ∀ m, (f m).id = m.id) (h : i ≠ id) : (s.update id f hf).stopOf i = s.stopOf i := by
  rw [stopOf, get?_update, if_neg h, stopOf]

theorem stopOf_markDone {id i : UInt32} {s t : Msms} (h : schedMarkDone id s = .ok t) :
    t.stopOf i = s.stopOf i := by
  have hnote : ∀ m : Measurement, (m.noteDone id).failsafeStop = m.failsafeStop := by
    intro m
    unfold Measurement.noteDone
    split <;> rfl
  obtain ⟨m, -, -, rfl⟩ := schedMarkDone_ok h
  rw [Msms.stopOf, Msms.noteDone, Msms.get?_mapValues, Msms.get?_update, Msms.stopOf]
  cases s.get? i with
  | none => simp
  | some x => by_cases hi : i = id <;> simp [hi, hnote]

/-- The calls that do not set the failsafe time of `id` keep it. -/
theorem Unset.stopOf {id : UInt32} {s t : Msms} {call : TableCall} (h : Unset id s call t) :
    t.stopOf id = s.stopOf id := by
  obtain ⟨hrun, hno⟩ := h
  cases call with
  | next rank now =>
    obtain ⟨⟨r, t'⟩, hr, rfl⟩ : ∃ r, schedNext rank now s = .ok r ∧ r.2 = t := by
      simp only [TableCall.run] at hrun
      cases hr : schedNext rank now s with
      | error e => rw [hr] at hrun; cases hrun
      | ok r => rw [hr] at hrun; exact ⟨r, rfl, Except.ok.inj hrun⟩
    cases hfind : (ranked rank Measurement.id s.entries).find? Measurement.ready with
    | none =>
      obtain ⟨-, rfl⟩ : 0 = r ∧ s = t' := by
        simpa [schedNext, schedNextInternal, hfind] using hr
      rfl
    | some e =>
      have hne := hno e now ⟨rfl, hfind⟩
      simp only [schedNext, schedNextInternal, hfind, ↓reduceIte, bind_eq_ok, pure_eq_ok,
        Prod.mk.injEq] at hr
      obtain ⟨stop, -, -, rfl⟩ := hr
      exact Msms.stopOf_update_ne (fun x => x.begin_id stop) (Ne.symm hne)
  | markDone i => exact stopOf_markDone hrun
  | resetFailsafeStop now i =>
    simp only [TableCall.run, schedResetFailsafeStop] at hrun
    cases hget : s.get? i with
    | none => rw [hget] at hrun; cases hrun
    | some e =>
      have hne := hno e now ⟨rfl, hget⟩
      simp only [hget, bind_eq_ok, pure_eq_ok] at hrun
      obtain ⟨stop, -, rfl⟩ := hrun
      refine Msms.stopOf_update_ne (fun x => x.resetStop_id stop) ?_
      rw [← Msms.get?_id hget]
      exact Ne.symm hne

/-- Until the failsafe time of `id` is set again it stays what it is. -/
theorem stopOf_reaches {id : UInt32} {s t : Msms} (h : Reaches (Unset id) s t) :
    t.stopOf id = s.stopOf id :=
  h.invariant (I := fun t => t.stopOf id = s.stopOf id) rfl fun hs hstep => hstep.stopOf.trans hs

end Sched

/-- The main loop gets the failsafe time that is in the table. -/
theorem fillParams_stopOf {m : UInt32} {r : Bool × MsmParams} {s : Msms}
    (h : fillMsmParams m s = .ok r) : s.stopOf m = some r.2.failsafeStop := by
  simp only [fillMsmParams, bind_eq_ok, pure_eq_ok] at h
  obtain ⟨-, -, -, -, stop, hstop, hosts, -, rfl⟩ := h
  simp only [schedGetFailsafeStop, lookup, bind_eq_ok, pure_eq_ok] at hstop
  obtain ⟨e, he, rfl⟩ := hstop
  cases hget : s.get? m with
  | none => rw [hget] at he; cases he
  | some e' =>
    rw [hget] at he
    obtain rfl := Except.ok.inj he
    rw [Msms.stopOf, hget]
    rfl

theorem assertFillParams_stopOf {m : UInt32} {p : MsmParams} {s t : Loop}
    (h : exec (assertFillParams m) s = (.ok p, t)) :
    s.co.msms.stopOf m = some p.failsafeStop ∧ t = s := by
  refine wp_returns (Q := fun p t => s.co.msms.stopOf m = some p.failsafeStop ∧ t = s)
    (E := fun _ _ => True) ?_ h
  simp only [assertFillParams, fillParams, wp_bind, wp_co]
  cases hfill : fillMsmParams m s.co.msms with
  | error e => trivial
  | ok r =>
    have hstop := fillParams_stopOf hfill
    simp only [Except.mapError, fromExcept_ok, wp_pure]
    cases hok : failIf (¬ r.1 = true) Abort.assertFillMsmParams with
    | error e => trivial
    | ok u => exact ⟨hstop, rfl⟩

/-- The check of the main loop fails a measurement only after its failsafe time. -/
theorem Move.late_of_scan {i : ℕ} {m m' : UInt32} {next : Point} {s s' : Loop} {now : Timeval}
    {stop : UInt64} (hmove : Move (.scan i, s) (.failing m' next, s'))
    (hi : s.co.known[i]? = some m) (hstop : s.co.msms.stopOf m = some stop)
    (hnow : (s.os.script s.os.tick).time = some now) : stop < now.tvSec.toUInt64 := by
  cases hmove with
  | @late _ _ p a now' _ t _ hi' hp ha hnow' hlate =>
    rw [hi] at hi'
    obtain rfl := Option.some.inj hi'
    obtain ⟨hp', rfl⟩ := assertFillParams_stopOf hp
    rw [hstop] at hp'
    have hanswer : t.os.script t.os.tick = a := Except.ok.inj (Prod.mk.inj ha).1
    rw [hanswer, hnow'] at hnow
    rw [Option.some.inj hp', ← Option.some.inj hnow]
    exact hlate

/-- The failsafe time has been set to one and a half durations after `now`, and as long as it is not
set again the main loop does not fail the measurement before its duration is over. -/
structure StopSet (now : EpochSecs) (e : Measurement) (t : Msms) : Prop where
  exact : ∃ e', t.get? e.id = some e' ∧
    e'.failsafeStop.toNat = now.secs.toNat + 3 * e.dur.toNat / 2
  patient : ∀ (s : Loop) (i : ℕ) (time : Timeval), Reaches (Unset e.id) t s.co.msms →
    s.co.known[i]? = some e.id → (s.os.script s.os.tick).time = some time → 0 ≤ time.tvSec →
    time.tvSec.toInt ≤ now.secs.toNat + e.dur.toNat →
    ∀ m next s', ¬ Move (.scan i, s) (.failing m next, s')

/-- `sched_next` on the entry `e`, and `sched_reset_failsafe_stop`, complete with an exact failsafe
time if and only if `3 * dur` fits into a `u32`. -/
theorem failsafe_exact_iff {s : Msms} {e : Measurement} {now : EpochSecs} {call : TableCall}
    (h : call.Sets s e now) :
    (∃ t, call.run s = .ok t ∧ StopSet now e t) ↔ 3 * e.dur.toNat < 2 ^ 32 := by
  rcases h.run with ⟨herr, hlt⟩ | ⟨hlt, t, e', hrun, hget, hvalue⟩
  · refine iff_of_false ?_ hlt
    rintro ⟨t, hrun, -⟩
    rw [herr] at hrun
    cases hrun
  · refine iff_of_true ⟨t, hrun, ⟨e', hget, hvalue⟩, ?_⟩ hlt
    intro u i time hreach hi htime hpos hearly m next u' hmove
    have hstop : u.co.msms.stopOf e.id = some e'.failsafeStop := by
      rw [stopOf_reaches hreach, Msms.stopOf, hget, Option.map_some]
    have hlate := hmove.late_of_scan hi hstop htime
    -- the clock is read as an unsigned number
    have hclock : time.tvSec.toUInt64.toNat = time.tvSec.toInt.toNat := by
      rw [Int64.toNat_toUInt64_of_le hpos, Int64.toNat_toInt]
    rw [UInt64.lt_iff_toNat_lt, hvalue, hclock] at hlate
    omega

/-- The only measurement of a schedule, of the duration `dur`. -/
def loneMeasurement (dur : UInt32) : Measurement :=
  ⟨1, "AA".toList, dur, .waiting, [⟨"m".toList, 100, 2⟩], [], [], 0⟩

def loneTable (dur : UInt32) : Msms := ⟨[loneMeasurement dur], List.nodup_singleton _⟩

theorem failsafe_exact_thirty : ∃ t,
    (TableCall.next (fun _ => 0) .zero).run (loneTable 30) = .ok t ∧
    StopSet .zero (loneMeasurement 30) t := by
  have hsets : (TableCall.next (fun _ => 0) .zero).Sets (loneTable 30) (loneMeasurement 30) .zero :=
    ⟨rfl, rfl⟩
  exact (failsafe_exact_iff hsets).mpr (by decide)

/-- A duration that a line of a schedule may have, and with which both calls panic. -/
theorem failsafe_overflow :
    newFromString "1 AA 1431655766 m 100 2 0".toList =
      .ok (some (loneMeasurement 1431655766)) ∧
    (TableCall.next (fun _ => 0) .zero).run (loneTable 1431655766) = .error .overflow ∧
    (TableCall.resetFailsafeStop .zero 1).run (loneTable 1431655766) = .error .overflow :=
  ⟨rfl, rfl, rfl⟩

end Flashflow
