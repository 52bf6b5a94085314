import Flashflow.Loop.Rounds

/-! What every run keeps: the records are in step, no phase starts early, no assertion fails, and
every measurement is counted once. -/
namespace Flashflow
open Sched Program Outcome LabelledRun

section
variable {r : Round} {table : Msms} {s t : Loop}

/-- The client array, the known ids and the scheduler's table are in step at every head of the main
loop, and nothing is left over when it exits. -/
theorem records_in_step (h : AtHead r s) :
    (∀ x ∈ s.co.metas, (x.currentMId = 0 ↔ x.state = .invalid) ∧
      (x.currentMId = 0 ↔ x.fd = -1)) ∧
    s.co.known.Nodup ∧
    (∀ m, m ∈ s.co.known ↔ s.co.msms.stateOf m = some .inProgress) ∧
    (∀ x ∈ s.co.metas, x.currentMId ≠ 0 → x.currentMId ∈ s.co.known) ∧
    (∀ m ∈ s.co.known, ∃ e, s.co.msms.get? m = some e ∧
      (classesOf s.co.metas m).Perm (e.hosts.map fun host => utf8 host.cls)) ∧
    (schedFinished s.co.msms = true → s.co.known = [] ∧
      ∀ x ∈ s.co.metas, x.currentMId = 0 ∧ x.state = .invalid ∧ x.fd = -1) := by
  obtain ⟨-, table, -, hq⟩ := h.quiet
  have howned : ∀ x ∈ s.co.metas, x.currentMId ≠ 0 → x.currentMId ∈ s.co.known :=
    fun x hx hcur => (hq.known_iff _).mpr (hq.coherent.owner_live hx hcur)
  refine ⟨fun x hx => ?_, hq.nodup, hq.known_iff, howned, fun m hm => ?_, fun hfin => ?_⟩
  · rcases hq.coherent.clients x hx with ⟨hcur, hst, hfd⟩ | ⟨hcur, ⟨hst, -⟩, hfd⟩
    · simp [hcur, hst, hfd]
    · have hne : x.fd ≠ -1 := by omega
      simp [hcur, hst, hne]
  · obtain ⟨e, he, hired⟩ := (hq.staffed m hm).hired
    exact ⟨e, he, hired.classes⟩
  · have hknown : s.co.known = [] := by
      refine List.eq_nil_iff_forall_not_mem.mpr fun m hm => ?_
      obtain ⟨e, he, hst⟩ := Option.map_eq_some_iff.mp ((hq.known_iff m).mp hm)
      rw [schedFinished_iff.mp hfin e (Msms.get?_eq_some_iff.mp he).1] at hst
      cases hst
    refine ⟨hknown, fun x hx => hq.coherent.idle hx ?_⟩
    by_contra hcur
    have hm := howned x hx hcur
    rw [hknown] at hm
    exact List.not_mem_nil hm

theorem records_in_step_twoClients :
    (∃ e, (twoClientsStart.after 2).co.msms.get? 1 = some e ∧
      (classesOf (twoClientsStart.after 2).co.metas 1).Perm
        (e.hosts.map fun host => utf8 host.cls)) ∧
    (twoClientsStart.after 5).co.known = [] :=
  ⟨(records_in_step (twoClients_atHead (by decide))).2.2.2.2.1 1 (by decide +kernel),
    ((records_in_step (twoClients_atHead (Nat.le_refl 5))).2.2.2.2.2 (by decide +kernel)).1⟩

/-- The phase before. -/
def Phase.previous : Phase → Option Phase
  | .auth => none
  | .connect => some .auth
  | .setBw => some .connect
  | .measure => some .setBw

theorem Event.abs_inj {c : ℕ} {m : UInt32} {p : Phase} {e : Event}
    (h : e.abs = .confirmed c m p.index) : e = .confirmed c m p := by
  cases e <;> simp only [Event.abs, Barrier.Event.confirmed.injEq, reduceCtorEq] at h
  obtain ⟨rfl, rfl, hp⟩ := h
  rw [Phase.index_injective hp]

/-- A gate in the history of a round: whoever is ever claimed for the measurement has been
confirmed before. -/
theorem Passed.gate (h : Passed r t) {pre post : List Event} {e : Event} {m : UInt32} {k c : ℕ}
    (ht : t.co.trace = pre ++ e :: post) (hg : Barrier.Gate 4 e.abs m k)
    (hc : .claimed c m ∈ t.co.trace) {p : Phase} (hp : p.index < k) : .confirmed c m p ∈ pre := by
  obtain ⟨-, table, -, -, x, hrun⟩ := h.runs
  have hes : t.co.trace.map Event.abs = pre.map Event.abs ++ e.abs :: post.map Event.abs := by
    simp [ht]
  have hmem := Barrier.gate_after_confirmed (fun _ => rfl) hrun hes hg
    (List.mem_map_of_mem hc) hp
  obtain ⟨e', he', habs⟩ := List.mem_map.mp hmem
  exact Event.abs_inj habs ▸ he'

/-- The phase barrier: no client of a measurement is sent the command of a phase, and the
measurement is no success, before the handler of the previous phase has confirmed it for every
client of that measurement. -/
theorem phase_barrier (h : Passed r t) {pre post : List Event} {m : UInt32} :
    (∀ c p q, t.co.trace = pre ++ .sent c m p :: post → p.previous = some q →
      ∀ c', .claimed c' m ∈ t.co.trace → .confirmed c' m q ∈ pre) ∧
    (t.co.trace = pre ++ .succeeded m :: post →
      ∀ c', .claimed c' m ∈ t.co.trace → .confirmed c' m .measure ∈ pre) := by
  refine ⟨fun c p q ht hq c' hc' => ?_, fun ht c' hc' => ?_⟩
  · refine h.gate ht (.sent c m p.index) hc' ?_
    cases p <;> simp only [Phase.previous, Option.some.injEq, reduceCtorEq] at hq
    all_goals
      subst hq
      decide
  · exact h.gate ht (.closed m) hc' (by decide)

theorem phase_barrier_twoClients : Event.confirmed 1 1 .auth ∈
    [.started 1, .claimed 0 1, .claimed 1 1, .sent 0 1 .auth, .sent 1 1 .auth,
      .confirmed 0 1 .auth, .confirmed 1 1 .auth] := by
  have htrace : (twoClientsStart.after 5).co.trace =
      [.started 1, .claimed 0 1, .claimed 1 1, .sent 0 1 .auth, .sent 1 1 .auth,
        .confirmed 0 1 .auth, .confirmed 1 1 .auth] ++ .sent 0 1 .connect ::
      (twoClientsStart.after 5).co.trace.drop 8 := by
    decide +kernel
  have hpassed : Passed twoClients (twoClientsStart.after 5) := .inl (twoClients_atHead (by decide))
  exact (phase_barrier hpassed).1 0 .connect .auth htrace rfl 1 (by decide +kernel)

/-- No assertion of the main loop fails, apart from the one about background clients and the one
about the clock, no event is for an unknown descriptor, and the loop never returns -1. The only
undefined behaviour is that of a reply that fills its buffer or a result that is all line ends. -/
theorem no_assertion_fails (h : AtHead r s) {ms : List Measurement}
    (hms : parseLines r.lines = .ok ms) (hnul : ∀ m ∈ ms, m.NulFree)
    (hdur : ∀ m ∈ ms, 3 * m.dur.toNat < 2 ^ 32) {t : Loop} {res : Except Abort Bool}
    (hex : exec mainLoopTurn s = (res, t)) :
    t.co.strays = [] ∧ (res = .ok true ∨ res = .error .assertBgConns ∨
      res = .error .assertGettimeofday ∨ res = .error .outOfBounds) := by
  obtain ⟨ms', table, hl, hq⟩ := h.quiet
  obtain rfl : ms' = ms := Except.ok.inj (hl.parsed.symm.trans hms)
  have hwp := wp_mainLoopTurn hq
  rcases res with e | ok
  · have hab := wp_aborts hwp hex
    refine ⟨hab.strays, .inr ?_⟩
    have hgood := hab.benign
    unfold Benign at hgood
    split at hgood
    · exact .inl rfl
    · exact .inr (.inl rfl)
    · exact .inr (.inr rfl)
    · obtain ⟨m, hm, hst, hlong⟩ := hgood
      obtain ⟨m₀, hm₀, -, hplan, -⟩ := hl.tracks.origin hm hst
      exact absurd (dur_of_plan hplan ▸ hdur m₀ hm₀) hlong
    · obtain ⟨m, hm, hst, hn⟩ := hgood
      obtain ⟨m₀, hm₀, -, hplan, -⟩ := hl.tracks.origin hm hst
      exact absurd (nulFree_of_plan hplan (hnul m₀ hm₀)) hn
    · exact hgood.elim
  · obtain ⟨rfl, hq'⟩ := wp_returns hwp hex
    exact ⟨hq'.coherent.strays, .inl rfl⟩

theorem no_assertion_fails_twoClients :
    (exec mainLoopTurn (twoClientsStart.after 3)).2.co.strays = [] :=
  (no_assertion_fails (twoClients_atHead (by decide)) parseLines_twoClients
    twoClientsSchedule_nulFree (by decide) Prod.mk.eta.symm).1

/-! How often measurements end. -/

theorem length_verdicts (es : List Event) : (Barrier.verdicts (es.map Event.abs)).length =
    es.countP Event.isSucceeded + es.countP Event.isFailed := by
  induction es with
  | nil => rfl
  | cons e es ih =>
    rw [List.map_cons, Barrier.verdicts_cons, List.length_append, ih, List.countP_cons,
      List.countP_cons]
    cases e <;> simp [Event.abs, Barrier.Event.verdict, Event.isFailed, Event.isSucceeded] <;> omega

theorem count_verdicts (es : List Event) (m : UInt32) :
    (Barrier.verdicts (es.map Event.abs)).count m =
      es.count (.succeeded m) + es.count (.failed m) := by
  induction es with
  | nil => rfl
  | cons e es ih =>
    rw [List.map_cons, Barrier.verdicts_cons, List.count_append, ih]
    cases e <;> simp [Event.abs, Barrier.Event.verdict, List.count_cons] <;> omega

/-- Every measurement of the schedule ends once, as a success only when all of its clients are
done, and the two counters add up. -/
theorem counted_once (h : AtHead r s) (hexit : schedFinished s.co.msms = true)
    {ms : List Measurement} (hms : parseLines r.lines = .ok ms) :
    (∀ m ∈ ms, s.co.trace.count (.succeeded m.id) + s.co.trace.count (.failed m.id) = 1) ∧
    s.co.countSuccess = s.co.trace.countP Event.isSucceeded ∧
    s.co.countFailure = s.co.trace.countP Event.isFailed ∧
    (∀ pre post m, s.co.trace = pre ++ .succeeded m :: post →
      ∀ c, .claimed c m ∈ s.co.trace → .confirmed c m .measure ∈ pre) ∧
    s.co.countSuccess + s.co.countFailure = ms.length := by
  obtain ⟨ms', table, hl, hq⟩ := h.quiet
  obtain rfl : ms' = ms := Except.ok.inj (hl.parsed.symm.trans hms)
  obtain ⟨hnd, hmem⟩ := Barrier.verdicts_spec hq.coherent.runs
  have hover : ∀ i, statusOf s.co.msms i = .over := by
    intro i
    cases he : s.co.msms.get? i with
    | none => simp [statusOf, Msms.stateOf, he]
    | some e =>
      have hst := schedFinished_iff.mp hexit e (Msms.get?_eq_some_iff.mp he).1
      simp [statusOf, Msms.stateOf, he, hst, State.stage]
  have hids : ∀ i, i ∈ Barrier.verdicts (s.co.trace.map Event.abs) ↔ i ∈ ms'.map Measurement.id :=
    fun i => by rw [hmem, ← hl.not_over_iff i]; exact and_iff_right (hover i)
  have hperm : (Barrier.verdicts (s.co.trace.map Event.abs)).Perm (ms'.map Measurement.id) :=
    (List.perm_ext_iff_of_nodup hnd hl.accepted.ids_nodup).mpr hids
  refine ⟨fun m hm => ?_, hq.counted.successes, hq.counted.failures, fun pre post m ht c hc => ?_,
    ?_⟩
  · rw [← count_verdicts]
    exact List.count_eq_one_of_mem hnd ((hids _).mpr (List.mem_map_of_mem hm))
  · exact Passed.gate (.inl h) ht (.closed m) hc (by decide)
  · rw [hq.counted.successes, hq.counted.failures, ← length_verdicts, hperm.length_eq,
      List.length_map]

theorem counted_once_twoClients : (twoClientsStart.after 5).co.countSuccess +
    (twoClientsStart.after 5).co.countFailure = 1 := by
  obtain ⟨-, -, -, -, hsum⟩ :=
    counted_once (twoClients_atHead (Nat.le_refl 5)) (by decide +kernel) parseLines_twoClients
  exact hsum

end
end Flashflow
