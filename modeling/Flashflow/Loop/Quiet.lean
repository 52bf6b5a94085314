import Flashflow.Loop.Preserve

/-! How the loop leaves the quiet states and comes back to them: a measurement is taken up, its
clients make their moves, and it is put back in order or ended. -/
namespace Flashflow
open Sched

variable {table : Msms} {s s' : Coord} {m i : UInt32} {c : ℕ} {x : Meta} {st : CsmState} {e : Event}

theorem hosts_of_plan {e e' : Measurement} (hp : e'.plan = e.plan) : e'.hosts = e.hosts := by
  simpa only [Measurement.plan_hosts] using congrArg Measurement.hosts hp

theorem fp_of_plan {e e' : Measurement} (hp : e'.plan = e.plan) : e'.fp = e.fp := by
  simpa only [Measurement.plan_fp] using congrArg Measurement.fp hp

theorem nulFree_of_plan {e e' : Measurement} (hp : e'.plan = e.plan) (h : e.NulFree) :
    e'.NulFree := by
  unfold Measurement.NulFree
  rw [fp_of_plan hp, hosts_of_plan hp]
  exact h

theorem Hired.of_plan {e e' : Measurement} {classes : List Bytes} (h : Hired e classes)
    (hp : e'.plan = e.plan) : Hired e' classes :=
  ⟨nulFree_of_plan hp h.nulFree, dur_of_plan hp ▸ h.dur, hosts_of_plan hp ▸ h.hosts,
    hosts_of_plan hp ▸ h.classes⟩

/-- What does not touch the plan or the clients of `i` leaves `i` staffed. -/
theorem Staffed.frame (h : Staffed s i)
    (hplan : (s'.msms.get? i).map Measurement.plan = (s.msms.get? i).map Measurement.plan)
    (hcls : classesOf s'.metas i = classesOf s.metas i)
    (hmem : ∀ y ∈ s'.metas, y.currentMId = i → y ∈ s.metas) : Staffed s' i := by
  obtain ⟨e, he, hired⟩ := h.hired
  obtain ⟨e', he', hp⟩ := exists_planned hplan he
  obtain ⟨p, hph⟩ := h.phase
  exact ⟨⟨e', he', hcls ▸ hired.of_plan hp⟩, p, fun y hy hyi => hph y (hmem y hy hyi) hyi⟩

theorem Counted.snoc (h : Counted s) (hmetas : s'.countFailure = s.countFailure)
    (hs : s'.countSuccess = s.countSuccess)
    (htr : s'.trace = s.trace ++ [e]) (hf : e.isFailed = false) (hok : e.isSucceeded = false) :
    Counted s' := by
  refine ⟨?_, ?_⟩
  · rw [hmetas, htr, h.failures]
    simp [hf]
  · rw [hs, htr, h.successes]
    simp [hok]

theorem Quiet.rest (h : Quiet table s) (hm : m ∈ s.known) : Rest table m s where
  coherent := h.coherent
  nodup := h.nodup
  live := (h.known_iff m).mp hm
  known_iff i _ := h.known_iff i
  staffed i hi _ := h.staffed i hi
  counted := h.counted

/-- A known measurement has hired a client for each of its hosts. -/
theorem Quiet.hired (h : Quiet table s) (hm : m ∈ s.known) {e : Measurement}
    (he : s.msms.get? m = some e) : Hired e (classesOf s.metas m) := by
  obtain ⟨e', he', hired⟩ := (h.staffed m hm).hired
  rw [he] at he'
  exact Option.some.inj he' ▸ hired

theorem Rest.quiet (h : Rest table m s) (hm : m ∈ s.known) (hstaff : Staffed s m) :
    Quiet table s where
  coherent := h.coherent
  nodup := h.nodup
  known_iff i := by
    by_cases hi : i = m
    · subst hi
      exact ⟨fun _ => h.live, fun _ => hm⟩
    · exact h.known_iff i hi
  staffed i hi := by
    by_cases him : i = m
    · exact him ▸ hstaff
    · exact h.staffed i hi him
  counted := h.counted

theorem Rest.ne_zero (h : Rest table m s) : m ≠ 0 := h.coherent.nonzero h.live

/-! The moves of one client. -/

theorem classesOf_move (hx : s.metas[c]? = some x) (i : UInt32) :
    classesOf (s.move c x st e).metas i = classesOf s.metas i :=
  classesOf_set hx { x with state := st } rfl rfl i

theorem Rest.move (h : Rest table m s) (hx : s.metas[c]? = some x) (hcur : x.currentMId = m)
    (hst : st ≠ .invalid ∧ st ≠ .failed)
    (hstep : Barrier.Step 4 s.crew e.abs (s.crew.put c (m, st.moves)))
    (hf : e.isFailed = false) (hok : e.isSucceeded = false) :
    Rest table m (s.move c x st e) where
  coherent := h.coherent.move hx (hcur ▸ h.ne_zero) hst (hcur ▸ hstep)
  nodup := h.nodup
  live := h.live
  known_iff := h.known_iff
  staffed i hi him := by
    refine (h.staffed i hi him).frame rfl (classesOf_move hx i) fun y hy hyi => ?_
    exact (mem_set hy).resolve_right fun he => him (by rw [← hyi, he, ← hcur])
  counted := h.counted.snoc rfl rfl rfl hf hok

/-- The command of a phase goes to a client, while the whole measurement is ready for it. -/
theorem Rest.sent (h : Rest table m s) (hx : s.metas[c]? = some x) (hcur : x.currentMId = m)
    {p : Phase} (hst : x.state = p.before)
    (hall : ∀ y ∈ s.metas, y.currentMId = m → y.state = p.before ∨ y.state = p.waits) :
    Rest table m (s.move c x p.waits (.sent c m p)) := by
  have hp : s.crew.place c = some (m, 2 * p.index) := by
    refine Coord.crew_place.mpr ⟨x, hx, ?_⟩
    rw [Meta.place_of_ne (hcur ▸ h.ne_zero), hcur, hst, p.moves_before]
  refine h.move hx hcur (by cases p <;> simp [Phase.waits]) ?_ rfl rfl
  rw [p.moves_waits]
  refine .sends hp fun w n hw => ?_
  obtain ⟨y, hy, hpl⟩ := Coord.crew_place.mp hw
  obtain ⟨hym, hmoves, -⟩ := Meta.place_eq_some hpl
  rcases hall y (List.mem_of_getElem? hy) hym with hs | hs
  · exact .inl (by rw [← hmoves, hs, p.moves_before])
  · exact .inr (by rw [← hmoves, hs, p.moves_waits])

/-- A phase is confirmed for a client. -/
theorem Rest.confirmed (h : Rest table m s) (hx : s.metas[c]? = some x) (hcur : x.currentMId = m)
    {p : Phase} (hst : x.state = p.waits) :
    Rest table m (s.move c x p.reached (.confirmed c m p)) := by
  have hp : s.crew.place c = some (m, 2 * p.index + 1) := by
    refine Coord.crew_place.mpr ⟨x, hx, ?_⟩
    rw [Meta.place_of_ne (hcur ▸ h.ne_zero), hcur, hst, p.moves_waits]
  refine h.move hx hcur (by cases p <;> simp [Phase.reached]) ?_ rfl rfl
  rw [p.moves_reached]
  exact .confirms hp

theorem Rest.claim (h : Rest table m s) (hx : s.metas[c]? = some x) (hcur : x.currentMId = 0)
    {n : ℕ} (hn : n ∉ s.openFds)
    (hall : ∀ y ∈ s.metas, y.currentMId = m → y.state = .connected) :
    Rest table m (s.claim c x n m) where
  coherent := h.coherent.claim hx hcur hn h.ne_zero h.live hall
  nodup := h.nodup
  live := h.live
  known_iff := h.known_iff
  staffed i hi him := by
    have hi0 : i ≠ 0 := h.coherent.nonzero ((h.known_iff i him).mp hi)
    refine (h.staffed i hi him).frame rfl
      (classesOf_set_other hx (fun he => hi0 (he.symm.trans hcur)) (Ne.symm him))
      fun y hy hyi => ?_
    refine (mem_set hy).resolve_right fun he => him ?_
    rw [← hyi, he]
    rfl
  counted := h.counted.snoc rfl rfl rfl rfl rfl

/-! The start, and changes of the table. -/

theorem Quiet.start (h : Quiet table s) {msms : Msms}
    (hmv : Moves s.msms msms m .waiting .inProgress) :
    Rest table m { s with msms := msms, trace := s.trace ++ [.started m] } where
  coherent := h.coherent.start hmv
  nodup := h.nodup
  live := by
    have hst := hmv.states m
    rwa [if_pos rfl] at hst
  known_iff i hi := by
    have hst := hmv.states i
    rw [if_neg hi] at hst
    rw [h.known_iff, ← hst]
  staffed i hi _ := (h.staffed i hi).frame (hmv.plans i) rfl fun _ hy _ => hy
  counted := h.counted.snoc rfl rfl rfl rfl rfl

/-- A measurement that has just started was not known before and has no clients. -/
theorem Quiet.fresh (h : Quiet table s) {msms : Msms} (hm : m ≠ 0)
    (hmv : Moves s.msms msms m .waiting .inProgress) :
    m ∉ s.known ∧ ∀ y ∈ s.metas, y.currentMId ≠ m := by
  constructor
  · intro hin
    have hst := (h.known_iff m).mp hin
    rw [hmv.before] at hst
    cases hst
  · intro y hy hym
    have hst := h.coherent.owner_live hy (hym ▸ hm)
    rw [hym, hmv.before] at hst
    cases hst

theorem Rest.retable (h : Rest table m s) {msms : Msms}
    (hst : ∀ i, msms.stateOf i = s.msms.stateOf i)
    (hplan : ∀ i, (msms.get? i).map Measurement.plan = (s.msms.get? i).map Measurement.plan) :
    Rest table m { s with msms := msms } where
  coherent := h.coherent.retable hst hplan
  nodup := h.nodup
  live := (hst m).trans h.live
  known_iff i hi := by
    rw [hst]
    exact h.known_iff i hi
  staffed i hi him := (h.staffed i hi him).frame (hplan i) rfl fun _ hy _ => hy
  counted := ⟨h.counted.failures, h.counted.successes⟩

/-! The end. -/

theorem Rest.ended (h : Rest table m s) (hend : Ended m e s s') {ok : Bool}
    (he : e.abs = .closed m ok)
    (hok : ok = true → ∀ x ∈ s.metas, x.currentMId = m → x.state = .done)
    (hnd : s'.known.Nodup) (hknown : ∀ i, i ∈ s'.known ↔ i ∈ s.known ∧ i ≠ m)
    (hcounted : Counted s') : Quiet table s' where
  coherent := h.coherent.ended hend he hok
  nodup := hnd
  known_iff i := by
    rw [hknown, hend.moves.states]
    by_cases him : i = m
    · simp [him]
    · simp [him, h.known_iff i him]
  staffed i hi := by
    obtain ⟨hi, him⟩ := (hknown i).mp hi
    have hi0 : i ≠ 0 := h.coherent.nonzero ((h.known_iff i him).mp hi)
    refine (h.staffed i hi him).frame (hend.moves.plans i) ?_ fun y hy hyi => ?_
    · rw [hend.metas]
      exact classesOf_release him hi0
    · rw [hend.metas] at hy
      obtain ⟨z, hz, rfl⟩ := List.mem_map.mp hy
      unfold Meta.release at hyi ⊢
      split at hyi
      · exact absurd hyi.symm hi0
      next hne => rwa [if_neg hne]
  counted := hcounted

/-! What the counter of idle turns and the script do not touch. -/

theorem Quiet.congr {s t : Coord} (h : Quiet table s) (hmetas : t.metas = s.metas)
    (hfds : t.openFds = s.openFds) (hmsms : t.msms = s.msms) (hknown : t.known = s.known)
    (hok : t.countSuccess = s.countSuccess) (hfail : t.countFailure = s.countFailure)
    (hstr : t.strays = s.strays) (htr : t.trace = s.trace) : Quiet table t := by
  cases s
  cases t
  simp only at *
  subst hmetas hfds hmsms hknown hok hfail hstr htr
  exact ⟨⟨h.coherent.clients, h.coherent.fds, h.coherent.opened, h.coherent.plans,
    h.coherent.zero_over, h.coherent.strays, h.coherent.runs⟩, h.nodup, h.known_iff,
    fun i hi => ⟨(h.staffed i hi).hired, (h.staffed i hi).phase⟩,
    ⟨h.counted.failures, h.counted.successes⟩⟩

theorem Quiet.loops {s : Coord} (h : Quiet table s) (n : ℕ) :
    Quiet table { s with loopsWithoutProgress := n } :=
  h.congr rfl rfl rfl rfl rfl rfl rfl rfl

end Flashflow
