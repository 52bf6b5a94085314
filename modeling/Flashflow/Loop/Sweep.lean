import Flashflow.Library.Sweep
import Flashflow.Loop.Failsafe
import Flashflow.Loop.Rounds

/-! The two loops that fail measurements while they go through the known ones: neither misses one
or fails one twice. -/
namespace Flashflow
open Sched Program Sweep

/-- `measurement_failed` for the measurements `ids`, one after the other. -/
structure FailedAll (ids : List UInt32) (s t : Coord) : Prop where
  trace : t.trace = s.trace ++ ids.map .failed
  failures : t.countFailure = s.countFailure + ids.length
  metas : t.metas = s.metas.map fun x => if x.currentMId ∈ ids then x.idle else x
  completed : ∀ m ∈ ids, t.msms.stateOf m = some .complete
  others : ∀ m, m ∉ ids → t.msms.stateOf m = s.msms.stateOf m
  stops : ∀ m, t.msms.stopOf m = s.msms.stopOf m

/-- The failsafe time of the measurement is over at the clock value. -/
def Sched.Msms.late (s : Msms) (clock : UInt64) (m : UInt32) : Bool :=
  (s.stopOf m).any fun stop => stop < clock

/-- Each time the clock is read in the scan from here on it shows `clock`, as it is compared. -/
def FixedClock (clock : UInt64) (s : Loop) : Prop :=
  ∀ k < s.co.known.length, ∃ now, (s.os.script (s.os.tick + k)).time = some now ∧
    now.tvSec.toUInt64 = clock

variable {table : Msms} {ids : List UInt32} {m : UInt32} {i : ℕ}

/-! Failing one measurement more. -/

theorem FailedAll.nil (s : Coord) : FailedAll [] s s where
  trace := (List.append_nil _).symm
  failures := rfl
  metas := by simp
  completed _ hm := absurd hm List.not_mem_nil
  others _ _ := rfl
  stops _ := rfl

theorem Meta.release_idle (m : UInt32) (x : Meta) : x.idle.release m = x.idle := by
  unfold release
  split <;> rfl

theorem FailedAll.snoc {s : Coord} {t u : Loop} (h : FailedAll ids s t.co)
    (hu : Cleaned table m t u) :
    FailedAll (ids ++ [m]) s { u.co with countFailure := u.co.countFailure + 1 } where
  trace := by rw [hu.ended.trace, h.trace, List.append_assoc, List.map_append]; rfl
  failures := by
    rw [hu.countFailure, h.failures, List.length_append]
    rfl
  metas := by
    rw [hu.ended.metas, h.metas, List.map_map]
    apply List.map_congr_left
    intro x _
    rw [Function.comp_apply]
    by_cases hids : x.currentMId ∈ ids
    · rw [if_pos hids, if_pos (List.mem_append_left _ hids), Meta.release_idle]
    · rw [if_neg hids, Meta.release]
      simp [hids]
  completed i hi := by
    rw [hu.ended.moves.states]
    split
    · rfl
    next hne =>
      rcases List.mem_append.mp hi with hi | hi
      · exact h.completed i hi
      · exact absurd (List.mem_singleton.mp hi) hne
  others i hi := by
    rw [List.mem_append, List.mem_singleton, not_or] at hi
    rw [hu.ended.moves.states, if_neg hi.2, h.others i hi.1]
  stops i := (stopOf_markDone hu.marked).trans (h.stops i)

/-- The failsafe times are those of before. -/
theorem FailedAll.late_iff {s t : Coord} (h : FailedAll ids s t) {e : Measurement}
    (he : t.msms.get? m = some e) (clock : UInt64) :
    e.failsafeStop < clock ↔ s.msms.late clock m = true := by
  rw [Msms.late, ← h.stops m, Msms.stopOf, he, Option.map_some, Option.any_some, decide_eq_true_eq]

/-- What takes the place of a known measurement comes from behind it. -/
theorem removeKnown_front {known : List UInt32} (hnd : known.Nodup) (hi : known[i]? = some m) :
    (m :: removeKnown m known).Perm known ∧ (removeKnown m known).take i = known.take i := by
  obtain ⟨hlt, -⟩ := List.getElem?_eq_some_iff.mp hi
  rcases removeKnown_cases m known with ⟨hm, -⟩ | ⟨k, hk, hremove⟩
  · exact absurd (List.mem_of_getElem? hi) hm
  obtain rfl : i = k := (List.getElem?_inj hlt hnd).mp (hi.trans hk.symm)
  rw [hremove]
  refine ⟨swapRemove_perm hi, ?_⟩
  rw [swapRemove, List.dropLast_eq_take, List.take_take, List.length_set, List.take_set,
    Nat.min_eq_left (by omega), List.set_eq_of_length_le (by simp)]

/-- The state of a sweep that fails the measurements with `p`: everything is in order, and the swept
ones have been failed. -/
structure Sweeping (table : Msms) (p : UInt32 → Prop) (s : Loop) (i : ℕ) (ids : List UInt32)
    (t : Loop) : Prop where
  swept : Swept p s.co.known i ids t.co.known
  failed : FailedAll ids s.co t.co
  quiet : Quiet table t.co
  script : t.os.script = s.os.script

theorem Sweeping.start {s : Loop} (h : Quiet table s.co) (p : UInt32 → Prop) :
    Sweeping table p s 0 [] s := ⟨.start p _, .nil _, h, rfl⟩

/-- One measurement is failed. -/
theorem wp_sweep {E : Abort → Loop → Prop} {p : UInt32 → Prop} {s t : Loop}
    (h : Sweeping table p s i ids t) {j : ℕ} (hj : t.co.known[j]? = some m) (hij : i ≤ j)
    (hm : p m) : wp (measurementFailed m) (fun _ u => u.os = t.os ∧
      u.co.known.length < t.co.known.length ∧ Sweeping table p s i (ids ++ [m])
        { u with co := { u.co with countFailure := u.co.countFailure + 1 } }) E t := by
  apply wp_conseq (wp_measurementFailed_cleaned (h.quiet.rest (List.mem_of_getElem? hj)))
  intro _ u hu
  obtain ⟨hperm, hfront⟩ := removeKnown_front h.quiet.nodup hj
  have hfront' : (removeKnown m t.co.known).take i = t.co.known.take i := by
    have htake := congrArg (List.take i) hfront
    rwa [List.take_take, List.take_take, Nat.min_eq_left hij] at htake
  refine ⟨hu.os, ?_, ?_, h.failed.snoc hu, hu.quiet, ?_⟩
  · have hlen := hperm.length_eq
    rw [List.length_cons, ← hu.known] at hlen
    omega
  · have hswept := h.swept.take hperm hm hfront'
    rwa [← hu.known] at hswept
  · rw [hu.os, h.script]

/-! The two loops. -/

/-- After too many idle rounds all known measurements are failed, and otherwise nothing happens. -/
theorem wp_giveUp_sweep {E : Abort → Loop → Prop} {s : Loop} (h : Quiet table s.co) :
    wp giveUp (fun _ t => Quiet table t.co ∧ t.os = s.os ∧
      if s.co.loopsWithoutProgress > maxLoopsWithoutProgress then
        t.co.known = [] ∧ ∃ ids, ids.Perm s.co.known ∧ FailedAll ids s.co t.co
      else t = s) E s := by
  rw [giveUp, wp_bind, wp_co, wp_ite]
  constructor
  · intro hloops
    simp only [if_pos hloops, wp_bind]
    refine wp_conseq (Q := fun _ t => ∃ ids, Sweeping table (fun _ => True) s 0 ids t ∧
        t.os = s.os ∧ t.co.known = []) (wp_whileFuel (fun _ t => ∃ ids,
          Sweeping table (fun _ => True) s 0 ids t ∧ t.os = s.os) (fun _ t => t.co.known.length)
        ?_ (by omega) ⟨[], .start h _, rfl⟩) ?_
    · rintro ⟨⟩ t ⟨ids, ht, hos⟩
      rw [wp_bind, wp_co]
      cases hlast : t.co.known.getLast? with
      | none => exact ⟨ids, ht, hos, List.getLast?_eq_none_iff.mp hlast⟩
      | some m =>
        have hj : t.co.known[t.co.known.length - 1]? = some m := by
          rw [← List.getLast?_eq_getElem?, hlast]
        simp only [wp_bind]
        apply wp_conseq (wp_sweep ht hj (Nat.zero_le _) trivial)
        rintro _ u ⟨huos, hlt, hu⟩
        rw [wp_bind, wp_countFailed, wp_pure]
        exact ⟨⟨_, hu, huos.trans hos⟩, hlt⟩
    · rintro _ t ⟨ids, ht, hos, hnil⟩
      have hperm := ht.swept.perm
      rw [hnil, List.append_nil] at hperm
      rw [wp_modifyCo]
      exact ⟨ht.quiet.loops 0, hos, hnil, ids, hperm, ht.failed.trace, ht.failed.failures,
        ht.failed.metas, ht.failed.completed, ht.failed.others, ht.failed.stops⟩
  · intro hloops
    rw [wp_pure, if_neg hloops]
    exact ⟨h, rfl, rfl⟩

/-- Where the clock stands still the scan returns, and has failed those whose time is over. -/
theorem wp_failsafeScan_sweep {E : Abort → Loop → Prop} {s : Loop} {clock : UInt64}
    (h : Quiet table s.co) (hclock : FixedClock clock s) :
    wp failsafeScan (fun _ t => ∃ ids, FailedAll ids s.co t.co ∧
      ids.Perm (s.co.known.filter (s.co.msms.late clock)) ∧
      t.co.known.Perm (s.co.known.filter fun m => ¬ s.co.msms.late clock m)) E s := by
  rw [failsafeScan, wp_bind, wp_co]
  apply wp_whileFuel (fun i t => ∃ ids,
      Sweeping table (fun m => s.co.msms.late clock m = true) s i ids t ∧
        t.os.tick = s.os.tick + (ids.length + i)) (fun i t => t.co.known.length - i)
  · rintro i t ⟨ids, ht, htick⟩
    rw [wp_bind, wp_co]
    cases hi : t.co.known[i]? with
    | none =>
      obtain ⟨hids, hknown⟩ := ht.swept.finish hi
      exact ⟨ids, ht.failed, by simpa using hids, by simpa using hknown⟩
    | some m =>
      obtain ⟨hlt, -⟩ := List.getElem?_eq_some_iff.mp hi
      have hlen := ht.swept.length
      simp only [wp_bind]
      apply wp_assertFillParams ht.quiet (List.mem_of_getElem? hi)
      intro e he _
      obtain ⟨now, hnow, rfl⟩ := hclock (ids.length + i) (by omega)
      rw [wp_bind]
      simp only [answer, wp_bind, wp_getState, wp_modifyState, wp_pure, ht.script, htick, hnow,
        wp_ite]
      have hlate := ht.failed.late_iff he now.tvSec.toUInt64
      constructor
      · intro hover
        refine wp_conseq (wp_sweep (t := ⟨_, t.co⟩) ⟨ht.swept, ht.failed, ht.quiet, rfl⟩ hi
          (Nat.le_refl i) (hlate.mp hover)) ?_
        rintro _ u ⟨huos, hshort, hu⟩
        have htick' : u.os.tick = s.os.tick + ((ids ++ [m]).length + i) := by
          rw [huos, List.length_append, List.length_singleton]
          simp only
          omega
        have hless : u.co.known.length - i < t.co.known.length - i := by
          have hshort' : u.co.known.length < t.co.known.length := hshort
          omega
        rw [wp_bind, wp_countFailed, wp_pure]
        exact ⟨⟨_, hu, htick'⟩, hless⟩
      · intro hearly
        refine ⟨⟨ids, ⟨ht.swept.pass hi fun hm => hearly (hlate.mpr hm), ht.failed, ht.quiet, rfl⟩,
          ?_⟩, ?_⟩
        · simp only
          omega
        · simp only
          omega
  · omega
  · exact ⟨[], .start h _, rfl⟩

/-- At every head of the main loop the loop that gives up returns, and after too many idle rounds it
has failed each known measurement once and none is left. Whatever the clock shows while it stands
still, the scan returns and has failed, each once, exactly the known measurements of which the
failsafe time is over; the others are still known. -/
theorem sweeps_exact {r : Round} {s : Loop} (h : AtHead r s) :
    (∃ t, exec giveUp s = (.ok (), t) ∧
      if s.co.loopsWithoutProgress > maxLoopsWithoutProgress then
        t.co.known = [] ∧ ∃ ids, ids.Nodup ∧ ids.Perm s.co.known ∧ FailedAll ids s.co t.co
      else t = s) ∧
    ∀ t, t = s ∨ exec giveUp s = (.ok (), t) → ∀ clock, FixedClock clock t →
      ∃ u, exec failsafeScan t = (.ok (), u) ∧ ∃ ids, ids.Nodup ∧ FailedAll ids t.co u.co ∧
        ids.Perm (t.co.known.filter (t.co.msms.late clock)) ∧
        u.co.known.Perm (t.co.known.filter fun m => ¬ t.co.msms.late clock m) := by
  obtain ⟨-, table, -, hq⟩ := h.quiet
  constructor
  · obtain ⟨_, t, ht, -, -, hgive⟩ := wp_terminates (wp_giveUp_sweep hq)
    refine ⟨t, ht, ?_⟩
    split at hgive
    next hloops =>
      obtain ⟨hnil, ids, hperm, hfailed⟩ := hgive
      rw [if_pos hloops]
      exact ⟨hnil, ids, hperm.nodup_iff.mpr hq.nodup, hperm, hfailed⟩
    next hloops =>
      rw [if_neg hloops]
      exact hgive
  · intro t ht clock hclock
    have hqt : Quiet table t.co := by
      rcases ht with rfl | ht
      · exact hq
      · exact (wp_returns (wp_giveUp_sweep (E := fun _ _ => False) hq) ht).1
    obtain ⟨_, u, hu, ids, hfailed, hids, hknown⟩ :=
      wp_terminates (wp_failsafeScan_sweep hqt hclock)
    exact ⟨u, hu, ids, hids.nodup_iff.mpr (hqt.nodup.filter _), hfailed, hids, hknown⟩

/-! A round of two measurements in which no client ever answers, and in which the clock shows 46
from some answer on. -/

def lateClients (late : ℕ) : Round := { twoClients with
  lines := ["1 AA 30 m 100 1".toList, "2 BB 60 n 50 1".toList]
  os := { twoClients.os with
    script := fun tick => { twoClients.os.script tick with
      time := some ⟨if tick < late then 0 else 46, 0⟩
      ready := none } } }

def lateSchedule : List Measurement :=
  [⟨1, "AA".toList, 30, .waiting, [⟨"m".toList, 100, 1⟩], [], [], 0⟩,
   ⟨2, "BB".toList, 60, .waiting, [⟨"n".toList, 50, 1⟩], [], [], 0⟩]

def lateStart (late : ℕ) : Loop where
  os := (lateClients late).os
  co := { twoClientsStart.co with msms := ⟨lateSchedule, by decide⟩ }

theorem FailedAll.count_failed {s t : Coord} (h : FailedAll ids s t) (hnd : ids.Nodup)
    (hm : m ∈ ids) : t.trace.count (.failed m) = s.trace.count (.failed m) + 1 := by
  have hinj : Function.Injective Event.failed := fun _ _ => Event.failed.inj
  rw [h.trace, List.count_append, List.count_map_of_injective ids Event.failed hinj,
    List.count_eq_one_of_mem hnd hm]

/-- Without the clock both measurements are given up after ten idle rounds. If it shows 46 when
both are known, only the first one is late, and the second one takes its place. -/
theorem sweeps_exact_lateClients :
    (∃ s t, AtHead (lateClients 1000) s ∧ s.co.known = [1, 2] ∧ exec giveUp s = (.ok (), t) ∧
      t.co.known = [] ∧ t.co.trace.count (.failed 1) = 1 ∧ t.co.trace.count (.failed 2) = 1) ∧
    ∃ s u, AtHead (lateClients 9) s ∧ s.co.known = [1, 2] ∧ exec failsafeScan s = (.ok (), u) ∧
      u.co.known = [2] ∧ u.co.trace.count (.failed 1) = 1 := by
  constructor
  · have hturns : ∀ i < 11, schedFinished ((lateStart 1000).after i).co.msms = false ∧
        (exec mainLoopTurn ((lateStart 1000).after i)).1 = .ok true := by
      decide +kernel
    obtain ⟨s, hhead, hknown, hloops, hfirst, hsecond⟩ : ∃ s, AtHead (lateClients 1000) s ∧
        s.co.known = [1, 2] ∧ s.co.loopsWithoutProgress = 11 ∧
        s.co.trace.count (.failed 1) = 0 ∧ s.co.trace.count (.failed 2) = 0 :=
      ⟨(lateStart 1000).after 11, (AtHead.first rfl rfl).after hturns, by decide +kernel,
        by decide +kernel, by decide +kernel, by decide +kernel⟩
    obtain ⟨t, ht, hgive⟩ := (sweeps_exact hhead).1
    rw [if_pos (by rw [hloops]; decide)] at hgive
    obtain ⟨hnil, ids, hnd, hperm, hfailed⟩ := hgive
    rw [hknown] at hperm
    refine ⟨s, t, hhead, hknown, ht, hnil, ?_, ?_⟩
    · rw [hfailed.count_failed hnd (hperm.mem_iff.mpr (by decide)), hfirst]
    · rw [hfailed.count_failed hnd (hperm.mem_iff.mpr (by decide)), hsecond]
  · have hturns : ∀ i < 2, schedFinished ((lateStart 9).after i).co.msms = false ∧
        (exec mainLoopTurn ((lateStart 9).after i)).1 = .ok true := by
      decide +kernel
    obtain ⟨s, hhead, hknown, hlate, hkept, htime, hnone⟩ : ∃ s, AtHead (lateClients 9) s ∧
        s.co.known = [1, 2] ∧ s.co.known.filter (s.co.msms.late 46) = [1] ∧
        s.co.known.filter (fun m => ¬ s.co.msms.late 46 m) = [2] ∧
        (∀ k < 2, ((s.os.script (s.os.tick + k)).time.map Timeval.tvSec) = some 46) ∧
        s.co.trace.count (.failed 1) = 0 :=
      ⟨(lateStart 9).after 2, (AtHead.first rfl rfl).after hturns, by decide +kernel,
        by decide +kernel, by decide +kernel, by decide +kernel, by decide +kernel⟩
    have hclock : FixedClock 46 s := by
      rw [FixedClock, hknown]
      intro k hk
      obtain ⟨now, hnow, hsec⟩ := Option.map_eq_some_iff.mp (htime k hk)
      exact ⟨now, hnow, by rw [hsec]; rfl⟩
    obtain ⟨u, hu, ids, hnd, hfailed, hids, hperm⟩ :=
      (sweeps_exact hhead).2 s (.inl rfl) 46 hclock
    rw [hlate] at hids
    rw [hkept] at hperm
    refine ⟨s, u, hhead, hknown, hu, List.perm_singleton.mp hperm, ?_⟩
    rw [hfailed.count_failed hnd (hids.mem_iff.mpr (List.mem_singleton_self 1)), hnone]

end Flashflow
