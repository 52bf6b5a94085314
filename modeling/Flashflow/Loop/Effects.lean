import Flashflow.Loop.Cleanup
import Flashflow.Loop.Writes

/-! What one move of the main loop does to the coordinator. A move either leaves the clients, the
table, the known measurements and the history alone, or does exactly one of a few things to them;
invariants of whole runs need to look at these only. -/
namespace Flashflow
open Sched Program Arrays Outcome

/-- What a move does to the coordinator, where `a` is the next answer from outside. A failsafe time
is only set again for a measurement that has `begun` to measure. -/
inductive Effect (begun : UInt32 → Prop) (a : Answer) (s t : Coord) : Prop
  | still (hmetas : t.metas = s.metas) (hmsms : t.msms = s.msms) (hknown : t.known = s.known)
      (htrace : t.trace = s.trace)
  /-- `sched_next` hands out `m`. -/
  | picks {m : UInt32} {msms : Msms} (hm : m ≠ 0)
      (h : schedNext a.rank a.now s.msms = .ok (m, msms))
      (ht : t = { s with msms := msms, trace := s.trace ++ [.started m] })
  /-- An idle client is connected and works for `m` from now on. -/
  | claims {c n : ℕ} {x : Meta} {m : UInt32} {fds : List ℕ} (hx : s.metas[c]? = some x)
      (hcur : x.currentMId = 0) (hm : s.msms.stateOf m = some .inProgress)
      (ht : t = Coord.claim { s with openFds := fds } c x n m)
  /-- `known_m_ids[num_known_m_ids++] = new_m_id` -/
  | enters {m : UInt32} (hm : s.msms.stateOf m = some .inProgress)
      (ht : t = { s with known := s.known ++ [m] })
  /-- A client is told to do what a phase asks for. -/
  | sends {c : ℕ} {x : Meta} {p : Phase} (hx : s.metas[c]? = some x) (hcur : x.currentMId ≠ 0)
      (hst : x.state = p.before) (ht : t = s.move c x p.waits (.sent c x.currentMId p))
  | confirms {c : ℕ} {x : Meta} {p : Phase} (hx : s.metas[c]? = some x) (hst : x.state = p.waits)
      (ht : t = s.move c x p.reached (.confirmed c x.currentMId p))
  | resets {m : UInt32} {msms : Msms} (hm : m ∈ s.known) (hbegun : begun m)
      (h : schedResetFailsafeStop a.now m s.msms = .ok msms) (ht : t = { s with msms := msms })
  /-- `m` is over, and its clients are free again. -/
  | ends {m : UInt32} {e : Event} (he : e = .failed m ∨ e = .succeeded m)
      (h : schedMarkDone m s.msms = .ok t.msms) (hmetas : t.metas = s.metas.map (Meta.release m))
      (hknown : t.known.Perm (s.known.erase m)) (htrace : t.trace = s.trace ++ [e])

section
variable {table : Msms} {s t : Loop} {m : UInt32} {i j c : ℕ} {x : Meta} {p : Phase}
  {q : MsmParams} {a : Answer} {begun : UInt32 → Prop}

theorem Effect.refl {s : Coord} : Effect begun a s s := .still rfl rfl rfl rfl

/-- A change of the other variables. -/
theorem Effect.of_eq {s t : Coord} (h : t = s) : Effect begun a s t := h ▸ .refl

/-! Operations that only look at the state, and the calls of the scheduler. -/

theorem fillParams_same {r : Bool × MsmParams} (h : exec (fillParams m) s = (.ok r, t)) : t = s :=
  ((keeps_fillParams (R := Eq) m).of_exec h).symm

theorem assertFillParams_same (h : exec (assertFillParams m) s = (.ok q, t)) : t = s :=
  ((keeps_assertFillParams (R := Eq) m).of_exec h).symm

theorem answer_ok (h : exec answer s = (.ok a, t)) : a = s.os.script s.os.tick ∧ t.co = s.co :=
  ⟨(Except.ok.inj (Prod.mk.inj h).1).symm, answer_co h⟩

theorem schedCall_ok {α : Type} {f : Msms → Except Panic (α × Msms)} {r : α}
    (h : exec (schedCall f) s = (.ok r, t)) :
    ∃ msms, f s.co.msms = .ok (r, msms) ∧ t.co = { s.co with msms := msms } := by
  refine wp_returns (Q := fun r t => ∃ msms, f s.co.msms = .ok (r, msms) ∧
    t.co = { s.co with msms := msms }) (E := fun _ _ => True) ?_ h
  exact wp_schedCall (fun r msms hok => ⟨msms, hok, rfl⟩) fun _ _ => trivial

/-- `sched_next` returns 0 only if it has changed nothing. -/
theorem schedNext_zero {rank : UInt32 → ℕ} {now : EpochSecs} {msms : Msms}
    (hzero : statusOf s.co.msms 0 = .over) (h : schedNext rank now s.co.msms = .ok (0, msms)) :
    msms = s.co.msms ∧ ∀ e ∈ msms.entries, e.ready = false := by
  rcases schedNext_ok h with ⟨-, rfl, hnone⟩ | ⟨e, stop, hget, hready, -⟩
  · exact ⟨rfl, hnone⟩
  · have hw : statusOf s.co.msms 0 = .waiting := by
      simp only [Measurement.ready, decide_eq_true_eq] at hready
      simp [statusOf, Msms.stateOf, hget, hready.1, State.stage]
    rw [hzero] at hw
    cases hw

theorem effect_idle (h : Coherent table s.co) {u : Loop} (ha : exec answer s = (.ok a, t))
    (hm : exec (schedCall (schedNext a.rank a.now)) t = (.ok m, u)) (hpos : ¬ m > 0) :
    Effect begun (s.os.script s.os.tick) s.co u.co := by
  obtain ⟨rfl, hco⟩ := answer_ok ha
  obtain ⟨msms, hnext, hu⟩ := schedCall_ok hm
  obtain rfl : m = 0 := by
    by_contra hne
    exact hpos (UInt32.pos_iff_ne_zero.mpr hne)
  rw [hco] at hnext hu
  obtain ⟨rfl, -⟩ := schedNext_zero h.status_zero hnext
  exact .of_eq hu

theorem effect_picked {u : Loop} (ha : exec answer s = (.ok a, t))
    (hm : exec (schedCall (schedNext a.rank a.now)) t = (.ok m, u)) (hpos : m > 0) :
    Effect begun (s.os.script s.os.tick) s.co
      { u.co with trace := u.co.trace ++ [.started m] } := by
  obtain ⟨rfl, hco⟩ := answer_ok ha
  obtain ⟨msms, hnext, hu⟩ := schedCall_ok hm
  rw [hco] at hnext hu
  refine .picks (UInt32.pos_iff_ne_zero.mp hpos) hnext ?_
  rw [hu]

theorem effect_begin {u v : Loop} (hm : m ∈ s.co.known) (hbegun : begun m)
    (hb : exec (isTotallyBwSet m) s = (.ok true, t)) (ha : exec answer t = (.ok a, u))
    (hr : exec (schedCall fun s => (schedResetFailsafeStop a.now m s).map fun s => ((), s)) u =
      (.ok (), v)) : Effect begun (s.os.script s.os.tick) s.co v.co := by
  obtain ⟨rfl, -⟩ := isTotally_ok hb
  obtain ⟨rfl, hco⟩ := answer_ok ha
  obtain ⟨msms, hreset, hv⟩ := schedCall_ok hr
  rw [hco] at hreset hv
  have hok : schedResetFailsafeStop (t.os.script t.os.tick).now m t.co.msms = .ok msms := by
    cases hs : schedResetFailsafeStop (t.os.script t.os.tick).now m t.co.msms with
    | error e => simp [hs, Except.map] at hreset
    | ok b => simpa [hs, Except.map] using hreset
  exact .resets hm hbegun hok hv

/-! The turns of the loops over the clients. -/

/-- A command goes out, or nothing happens to the client. -/
theorem command_co {wrong : Prop} {f : Option ℕ → Meta → Except Abort (Bool × Bytes × Meta)}
    (hf : Sends p wrong f) (hx : s.co.metas[c]? = some x) (hst : x.state = p.before) :
    wp (command p f c) (fun ok t =>
      t.co = if ok then s.co.move c x p.waits (.sent c x.currentMId p) else s.co)
      (fun _ _ => True) s := by
  rw [command, wp_bind]
  refine wp_answer fun a os => ?_
  simp only [wp_bind, wp_metaAt, hx]
  rcases hf a.sent x hst with ⟨ok, msg, hok⟩ | ⟨herr, -⟩
  · simp only [hok, fromExcept_ok, wp_pure, wp_bind, wp_setMeta]
    cases ok with
    | false => simp [set_same hx]
    | true => simp [Coord.move]
  · simp only [herr, fromExcept_error, wp_abort]

theorem effect_command {wrong : Prop} {f : Option ℕ → Meta → Except Abort (Bool × Bytes × Meta)}
    (hf : Sends p wrong f) (hx : s.co.metas[c]? = some x) (hcur : x.currentMId ≠ 0)
    (hst : x.state = p.before) :
    wp (command p f c) (fun _ t => Effect begun a s.co t.co) (fun _ _ => True) s := by
  apply wp_conseq (command_co hf hx hst)
  rintro (_ | _) t ht
  · exact .of_eq ht
  · exact .sends hx hcur hst ht

/-- In the turn of client `j` in a pass nothing happens, or the client is told. -/
theorem effect_commanded {α : Type} {wrong : Prop} {s₀ : Coord} (h : Passing table m p s₀ j s.co)
    {f : Option ℕ → Meta → Except Abort (Bool × Bytes × Meta)} (hf : Sends p wrong f)
    {r : Turn α Unit} (h' : Commanded m j p f r s t) : Effect begun a s.co t.co := by
  obtain ⟨x, hx, hcur, hrun⟩ := h'
  have hst : x.state = p.before := by simpa using h.states j x hx hcur
  have hcommand : wp (command p f j) (fun _ t => Effect begun a s.co t.co) (fun _ _ => True) s :=
    effect_command hf hx (hcur ▸ h.rest.ne_zero) hst
  cases r with
  | next => exact wp_returns hcommand hrun
  | leave => exact wp_returns hcommand hrun

theorem effect_greet (h : (Point.greet m j).Holds table s.co) {r : Turn Unit Unit}
    (hr : exec (authTurn m j) s = (.ok r, t)) : Effect begun a s.co t.co := by
  obtain ⟨e, s₀, hpass⟩ := h
  rcases authTurn_ok hr with ⟨-, rfl⟩ | hsent
  · exact .refl
  · exact effect_commanded hpass.passing sends_auth hsent

theorem effect_tell {b : Pass} (h : (Point.tell b i m j q).Holds table s.co)
    {r : Turn MsmParams Unit}
    (hr : exec (assignTurn m b.phase.waits (b.tell q.fp) j q) s = (.ok r, t)) :
    Effect begun a s.co t.co := by
  obtain ⟨e, s₀, hpass, -⟩ := h
  rcases assignTurn_ok hr with ⟨-, rfl, -⟩ | ⟨slot, hsent, -⟩
  · exact .refl
  · exact effect_commanded hpass.passing (sends_message b q.fp slot) hsent

theorem effect_start {n : ℕ} (h : (Point.start i m j n q).Holds table s.co) {r : Turn ℕ Unit}
    (hr : exec (startTurn m q.dur j n) s = (.ok r, t)) : Effect begun a s.co t.co := by
  obtain ⟨e, s₀, hpass, -⟩ := h
  rcases startTurn_ok hr with ⟨-, rfl⟩ | hsent
  · exact .refl
  · exact effect_commanded hpass.passing (sends_measure q.dur) hsent

/-! The end of a measurement. -/

theorem fails_co {next : Point} (h : (Point.failing m next).Holds table s.co)
    (hx : exec (do
      measurementFailed m
      countFailed) s = (.ok (), t)) : ∃ fds msms, schedMarkDone m s.co.msms = .ok msms ∧
        t.co = { s.co with
          metas := s.co.metas.map (Meta.release m), openFds := fds, msms := msms,
          known := removeKnown m s.co.known, countFailure := s.co.countFailure + 1,
          trace := s.co.trace ++ [.failed m] } := by
  refine wp_returns (Q := fun _ t => ∃ fds msms, schedMarkDone m s.co.msms = .ok msms ∧
    t.co = { s.co with
      metas := s.co.metas.map (Meta.release m), openFds := fds, msms := msms,
      known := removeKnown m s.co.known, countFailure := s.co.countFailure + 1,
      trace := s.co.trace ++ [.failed m] }) (E := fun _ _ => True) ?_ hx
  rw [wp_bind]
  apply wp_conseq (wp_measurementFailed_co h.1.coherent h.1.live)
  rintro _ _ ⟨fds, msms, hdone, -, rfl⟩
  exact wp_countFailed.mpr ⟨fds, msms, hdone, rfl⟩

theorem effect_fails {next : Point} (h : (Point.failing m next).Holds table s.co)
    (hx : exec (do
      measurementFailed m
      countFailed) s = (.ok (), t)) : Effect begun a s.co t.co := by
  obtain ⟨fds, msms, hdone, ht⟩ := fails_co h hx
  rw [ht]
  exact .ends (.inl rfl) hdone rfl (removeKnown_perm m s.co.known) rfl

/-- What the last stage does if all clients are done. -/
theorem finished_co (h : (Point.done i m).Holds table s.co)
    (hb : exec (doneStage i m) s = (.ok true, t)) :
    (∀ x ∈ s.co.metas, x.currentMId = m → x.state = .done) ∧
      ∃ fds msms, schedMarkDone m s.co.msms = .ok msms ∧ t.co = { s.co with
        metas := s.co.metas.map (Meta.release m), openFds := fds, msms := msms,
        known := swapRemove s.co.known i, countSuccess := s.co.countSuccess + 1,
        trace := s.co.trace ++ [.succeeded m] } := by
  have hturn : InTurn table i m 3 s.co := h
  have hrest := hturn.quiet.rest (List.mem_of_getElem? hturn.index)
  refine wp_returns (Q := fun ok t => ok = true →
    (∀ x ∈ s.co.metas, x.currentMId = m → x.state = .done) ∧
      ∃ fds msms, schedMarkDone m s.co.msms = .ok msms ∧ t.co = { s.co with
        metas := s.co.metas.map (Meta.release m), openFds := fds, msms := msms,
        known := swapRemove s.co.known i, countSuccess := s.co.countSuccess + 1,
        trace := s.co.trace ++ [.succeeded m] }) (E := fun _ _ => True) ?_ hb rfl
  rw [doneStage, wp_bind]
  refine wp_isTotally (fun hall => ?_) fun _ => by simp
  have hrel : Releases m (fun c => assertState c .done) (fun _ _ => True)
      { s with co := { s.co with trace := s.co.trace ++ [.succeeded m] } } := by
    intro c x t hmem
    exact releases_done (s := s) hrest.coherent hrest.ne_zero hall c x t hmem
  simp only [↓reduceIte, wp_bind, wp_record, wp_numMetas]
  apply wp_conseq (wp_releaseAll hrel)
  rintro _ t ⟨fds, rfl, -⟩
  rw [wp_bind]
  refine wp_markDone ?_ fun msms hdone => ?_
  · exact hrest.live
  rw [wp_bind, wp_modifyCo, wp_pure]
  exact fun _ => ⟨hall, fds, msms, hdone, rfl⟩

theorem effect_finished (h : (Point.done i m).Holds table s.co)
    (hb : exec (doneStage i m) s = (.ok true, t)) : Effect begun a s.co t.co := by
  obtain ⟨-, fds, msms, hdone, ht⟩ := finished_co h hb
  have hperm := (swapRemove_perm (InTurn.index h)).erase m
  rw [List.erase_cons_head] at hperm
  rw [ht]
  exact .ends (.inr rfl) hdone rfl hperm rfl

/-! The replies. -/

theorem effect_handled {f : FdSets} {fd : Int} {fds : List Int}
    (h : (Point.events f (fd :: fds)).Holds table s.co)
    (hc : s.co.metas.findIdx? (fun x => x.fd = fd) = some c)
    (hr : exec (handleEvent f c) s = (.ok true, t)) : Effect begun a s.co t.co := by
  obtain ⟨x, p, hx, hst, hrun⟩ := handled_run h hc hr
  rcases wp_returns (wp_handler h.1 hx hst) hrun with ⟨-, ht⟩ | ⟨ht, -⟩
  · exact .confirms hx hst ht
  · exact .of_eq ht

theorem effect_denied {f : FdSets} {fd : Int} {fds : List Int}
    (h : (Point.events f (fd :: fds)).Holds table s.co)
    (hc : s.co.metas.findIdx? (fun x => x.fd = fd) = some c) (hx : s.co.metas[c]? = some x)
    (hp : f.phaseOf x.fd = some p) (hr : exec (p.handler c) s = (.ok false, t)) :
    Effect begun a s.co t.co := by
  have hst := waits_of_phaseOf h hc hx hp
  exact .of_eq (handler_failed h.1 hx hst hr)

/-! Every move. -/

theorem effect_epoll {fds : List Int} {r : Option (List Int)}
    (hr : exec (epollWait fds) s = (.ok r, t)) (n : ℕ) :
    Effect begun a s.co { t.co with loopsWithoutProgress := n } := by
  have ht : t.co = s.co := (wp_returns (E := fun _ _ => True) wp_epollWait hr).1
  rw [ht]
  exact .still rfl rfl rfl rfl

/-- At a point with its invariant each move has one of these effects. -/
theorem Move.effect {c c' : Config} (h : Move c c') (hc : c.1.Holds table c.2.co) :
    Effect (fun m => ∃ i q, c'.1 = .start i m 0 0 q) (c.2.os.script c.2.os.tick) c.2.co
      c'.2.co := by
  cases h with
  | enter | overdue | drop | dropped | scanned | allGreeted | advanced | allTold | allStarted |
    skip | drained => exact .still rfl rfl rfl rfl
  | fails hx => exact effect_fails hc hx
  | late _ hp ha | inTime _ hp ha =>
    rw [assertFillParams_same hp] at ha
    exact .of_eq (answer_co ha)
  | idle ha hm hpos => exact effect_idle (Quiet.coherent hc) ha hm hpos
  | picked ha hm hpos => exact effect_picked ha hm hpos
  | unfit hp | fit hp => exact .of_eq (congrArg Loop.co (fillParams_same hp))
  | unclaimed hr =>
    obtain ⟨fds, -, ht⟩ := wp_returns (E := fun _ _ => True)
      (wp_nextAvailable (Hiring.rest hc).coherent _) hr
    rw [ht]
    exact .still rfl rfl rfl rfl
  | @claimed m slot rest c y s t hr hy =>
    obtain ⟨fds, -, x, n, hx, -, hcur, -, ht⟩ := wp_returns (E := fun _ _ => True)
      (wp_nextAvailable (Hiring.rest hc).coherent _) hr
    obtain ⟨hlt, -⟩ := List.getElem?_eq_some_iff.mp hx
    obtain rfl : y = { x with fd := (n : ℕ), state := .connected } := by
      rw [ht] at hy
      simpa [hlt] using hy.symm
    exact .claims hx hcur (Hiring.rest hc).live (claimed_eq m ht)
  | staffed => exact .enters (Hiring.rest hc).live rfl
  | greeted _ hr | ungreeted _ hr => exact effect_greet hc hr
  | turn _ hp => exact .of_eq (congrArg Loop.co (assertFillParams_same hp))
  | pass hb | noPass hb | noBegin hb => exact .of_eq (congrArg Loop.co (isTotally_ok hb).1)
  | told _ hr | untold _ hr => exact effect_tell hc hr
  | begin hb ha hr =>
    exact effect_begin (List.mem_of_getElem? (InTurn.index hc)) ⟨_, _, rfl⟩ hb ha hr
  | started _ hr | unstarted _ hr => exact effect_start hc hr
  | finished hb => exact effect_finished hc hb
  | @unfinished i m s t hb =>
    have hturn : InTurn table i m 3 s.co := hc
    exact .of_eq (congrArg Loop.co (wp_returns (wp_doneStage hturn.quiet hturn.index) hb).1)
  | timeout hr | wake hr => exact effect_epoll hr _
  | handled hk hr => exact effect_handled hc hk hr
  | denied hk hx hp hr => exact effect_denied hc hk hx hp hr

/-! Invariants of runs. -/

theorem Round.start_os {r : Round} (h : r.start = .ok (some s)) :
    s.os = r.os ∧ s.co.openFds = r.openFds ∧ tcClientFileRead r.clientFile = .ok s.co.metas ∧
      s.co.loopsWithoutProgress = 0 := by
  simp only [Round.start, bind_eq_ok] at h
  obtain ⟨metas, hmetas, h⟩ := h
  split at h
  · cases h
  simp only [bind_eq_ok] at h
  obtain ⟨⟨msms, n⟩, -, h⟩ := h
  split at h
  · cases h
  obtain rfl := Option.some.inj (pure_eq_ok.mp h)
  exact ⟨rfl, rfl, hmetas, rfl⟩

section
variable {r : Round} {d : Config} {I : List Measurement → Msms → Loop → Prop}
  (hstart : ∀ {s ms}, r.start = .ok (some s) → Loaded r ms s.co.msms → I ms s.co.msms s)
  (hmove : ∀ {ms table c c'}, Loaded r ms table → c.1.Holds table c.2.co → Move c c' →
    I ms table c.2 → I ms table c'.2)
include hmove

theorem Walk.induction {ms : List Measurement} {c c' : Config} (hl : Loaded r ms table)
    (hw : Walk c c') (hc : c.1.Holds table c.2.co) (hI : I ms table c.2) :
    c'.1.Holds table c'.2.co ∧ I ms table c'.2 := by
  induction hw with
  | refl => exact ⟨hc, hI⟩
  | tail _ hm ih => exact ⟨hm.holds ih.1, hmove hl ih.1 hm ih.2⟩

include hstart

theorem AtHead.induction (h : AtHead r s) :
    ∃ ms table, Loaded r ms table ∧ Quiet table s.co ∧ I ms table s := by
  induction h with
  | first hbase hs =>
    obtain ⟨ms, hl, hq⟩ := Round.start_quiet (hbase ▸ rfl) hs
    exact ⟨ms, _, hl, hq, hstart hs hl⟩
  | again _ hexit hbase hs _ =>
    obtain ⟨ms, hl, hq⟩ := Round.start_quiet (hbase ▸ hexit) hs
    exact ⟨ms, _, hl, hq, hstart hs hl⟩
  | turn _ hs ih =>
    obtain ⟨ms, table, hl, hq, hI⟩ := ih hstart hmove
    exact ⟨ms, table, hl, Walk.induction hmove hl (walk_of_turn hs) hq hI⟩

/-- What holds of the schedule, the loaded table and the state at the start of a round, and is kept
by every move from a point with its invariant, holds in all runs of the round. -/
theorem Reach.induction (h : Reach r d) :
    ∃ ms table, Loaded r ms table ∧ d.1.Holds table d.2.co ∧ I ms table d.2 := by
  obtain ⟨s, hs, hw⟩ := h
  obtain ⟨ms, table, hl, hq, hI⟩ := hs.induction hstart hmove
  exact ⟨ms, table, hl, Walk.induction hmove hl hw hq hI⟩

end
end
end Flashflow
