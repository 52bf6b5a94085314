import Mathlib.Tactic.IntervalCases
import Flashflow.Library.Sessions
import Flashflow.Loop.Scheduling

/-! The history of a round seen from one client, and the length of the history. -/
namespace Flashflow
open Sched Program Barrier LabelledRun

/-- The client an event is about. -/
def Event.client : Event → Option ℕ
  | .claimed c _ | .sent c _ _ | .confirmed c _ _ => some c
  | .started _ | .failed _ | .succeeded _ => none

/-- All that may happen to client `c` in the measurement `m`. -/
def sessionScript (c : ℕ) (m : UInt32) : List Event :=
  [.claimed c m, .sent c m .auth, .confirmed c m .auth, .sent c m .connect,
    .confirmed c m .connect, .sent c m .setBw, .confirmed c m .setBw, .sent c m .measure,
    .confirmed c m .measure]

section
variable {r : Round} {table : Msms} {p : Point} {s : Loop} {m : UInt32} {c n : ℕ} {e : Event}

/-- The `n`-th event of the script. -/
def scripted (c : ℕ) (q : UInt32 × ℕ) : Event := (sessionScript c q.1).getD q.2 (.started q.1)

theorem moveOf_client (e : Event) (c : ℕ) : (e.client = some c ∧ ∃ q : UInt32 × ℕ,
    e.abs.moveOf c = some q ∧ q.2 ≤ 8 ∧ scripted c q = e) ∨
      (e.client ≠ some c ∧ e.abs.moveOf c = none) := by
  have hphase : ∀ p : Phase, p.index ≤ 3 := fun p => by cases p <;> decide
  cases e with
  | started m | failed m | succeeded m =>
    exact .inr ⟨by simp [Event.client], by simp [Event.abs, Barrier.Event.moveOf, Event.mark]⟩
  | claimed c' m =>
    by_cases hc : c' = c
    · subst hc
      exact .inl ⟨rfl, (m, 0), by simp [Event.abs, Barrier.Event.moveOf, Event.mark], by simp, rfl⟩
    · exact .inr ⟨by simpa [Event.client] using hc,
        by simp [Event.abs, Barrier.Event.moveOf, Event.mark, hc]⟩
  | sent c' m p =>
    by_cases hc : c' = c
    · subst hc
      refine .inl ⟨rfl, (m, 2 * p.index + 1),
        by simp [Event.abs, Barrier.Event.moveOf, Event.mark], ?_, by cases p <;> rfl⟩
      have hle := hphase p
      simp only
      omega
    · exact .inr ⟨by simpa [Event.client] using hc,
        by simp [Event.abs, Barrier.Event.moveOf, Event.mark, hc]⟩
  | confirmed c' m p =>
    by_cases hc : c' = c
    · subst hc
      refine .inl ⟨rfl, (m, 2 * p.index + 2),
        by simp [Event.abs, Barrier.Event.moveOf, Event.mark], ?_, by cases p <;> rfl⟩
      have hle := hphase p
      simp only
      omega
    · exact .inr ⟨by simpa [Event.client] using hc,
        by simp [Event.abs, Barrier.Event.moveOf, Event.mark, hc]⟩

/-- The events about a client are its moves. -/
theorem filter_client (c : ℕ) (es : List Event) :
    es.filter (fun e => e.client = some c) = (movesOf c (es.map Event.abs)).map (scripted c) ∧
      ∀ q ∈ movesOf c (es.map Event.abs), q.2 ≤ 8 := by
  induction es with
  | nil => exact ⟨rfl, by simp [movesOf]⟩
  | cons e es ih =>
    obtain ⟨heq, hle⟩ := ih
    rcases moveOf_client e c with ⟨hc, q, hq, hq8, hback⟩ | ⟨hc, hnone⟩
    · have hmoves : movesOf c ((e :: es).map Event.abs) = q :: movesOf c (es.map Event.abs) := by
        simp [movesOf, hq]
      refine ⟨?_, fun q' hq' => ?_⟩
      · rw [hmoves, List.filter_cons_of_pos (by simpa using hc), heq, List.map_cons, hback]
      · rw [hmoves] at hq'
        rcases List.mem_cons.mp hq' with rfl | hq'
        · exact hq8
        · exact hle q' hq'
    · have hmoves : movesOf c ((e :: es).map Event.abs) = movesOf c (es.map Event.abs) := by
        simp [movesOf, hnone]
      rw [hmoves, List.filter_cons_of_neg (by simpa using hc)]
      exact ⟨heq, hle⟩

theorem map_session (h : n ≤ 8) :
    (session (m, n)).map (scripted c) = (sessionScript c m).take (n + 1) := by
  interval_cases n <;> rfl

/-- What the schedule held is over when the history says so. -/
theorem isOver_of_status (hl : Loaded r ms table) (h : Coherent table s.co)
    (hm : m ∈ ms.map Measurement.id) (hover : s.co.crew.status m = .over) :
    IsOver m s.co.trace := by
  have hclosed : m ∈ verdicts (s.co.trace.map Event.abs) :=
    ((verdicts_spec h.runs).2 m).mpr ⟨hover, (hl.not_over_iff m).mpr hm⟩
  obtain ⟨e', he', hverdict⟩ := List.mem_filterMap.mp hclosed
  obtain ⟨e, he, rfl⟩ := List.mem_map.mp he'
  cases e with
  | failed m' =>
    obtain rfl : m' = m := Option.some.inj hverdict
    exact .inl he
  | succeeded m' =>
    obtain rfl : m' = m := Option.some.inj hverdict
    exact .inr he
  | _ => cases hverdict

/-- What happens to a client in a round is one session after the other, each in a measurement of
the schedule that it is in only once, and each a beginning of the same script: it is claimed, and
phase after phase it is told and then confirmed. The script is complete if the measurement has
succeeded. Every session is over but the one the client is in, which is the last one, and the state
of a client that works is where this one stands. -/
theorem client_sessions (h : Reach r (p, s)) (c : ℕ) : ∃ ms, parseLines r.lines = .ok ms ∧
    ∃ past : List (UInt32 × ℕ),
      s.co.trace.filter (fun e => e.client = some c) =
        past.flatMap (fun q => (sessionScript c q.1).take (q.2 + 1)) ∧
      (past.map Prod.fst).Nodup ∧
      (∀ q ∈ past, q.2 < (sessionScript c q.1).length ∧ q.1 ∈ ms.map Measurement.id) ∧
      (∀ q ∈ past, .succeeded q.1 ∈ s.co.trace → q.2 + 1 = (sessionScript c q.1).length) ∧
      (∀ q ∈ past, IsOver q.1 s.co.trace ∨ past.getLast? = some q ∧
        ∃ x, s.co.metas[c]? = some x ∧ x.currentMId = q.1) ∧
      ∀ x, s.co.metas[c]? = some x → x.currentMId ≠ 0 →
        past.getLast? = some (x.currentMId, x.state.moves) := by
  obtain ⟨ms, table, hl, hholds⟩ := h.holds
  have hco : Coherent table s.co := hholds.coherent.1
  obtain ⟨past, hpast⟩ := exists_sessions (fun _ => rfl) hco.runs c
  obtain ⟨hfilter, hle⟩ := filter_client c s.co.trace
  have hmem : ∀ q ∈ past, q ∈ movesOf c (s.co.trace.map Event.abs) := by
    intro q hq
    rw [hpast.moves]
    refine List.mem_flatMap.mpr ⟨q, hq, List.mem_map.mpr ⟨q.2, ?_, rfl⟩⟩
    exact List.mem_range.mpr (Nat.lt_succ_self _)
  have hin : ∀ q ∈ past, q.1 ∈ ms.map Measurement.id := by
    intro q hq
    obtain ⟨e, he, hmark⟩ := mem_movesOf.mp (hmem q hq)
    have hlive := not_over_of_mem (fun _ => rfl) hco.runs he
    rw [hmark] at hlive
    exact (hl.not_over_iff q.1).mp hlive
  refine ⟨ms, hl.parsed, past, ?_, hpast.nodup, fun q hq => ⟨?_, hin q hq⟩, fun q hq hs => ?_,
    fun q hq => ?_, fun x hx hcur => ?_⟩
  · rw [hfilter, hpast.moves, List.map_flatMap]
    exact List.flatMap_congr fun q hq => map_session (hle q (hmem q hq))
  · exact Nat.lt_succ_of_le (hle q (hmem q hq))
  · have hclosed : Barrier.Event.closed q.1 true ∈ s.co.trace.map Event.abs :=
      List.mem_map.mpr ⟨_, hs, rfl⟩
    rw [hpast.full q hq hclosed]
    rfl
  · cases hst : s.co.crew.status q.1 with
    | waiting => exact absurd hst (hpast.begun q hq)
    | running =>
      have hplace := hpast.present q hq hst
      obtain ⟨x, hx, hp⟩ := Coord.crew_place.mp hplace
      exact .inr ⟨hpast.last q hplace, x, hx, (Meta.place_eq_some hp).1⟩
    | _ => exact .inl (isOver_of_status hl hco (hin q hq) hst)
  · exact hpast.last _ (Coord.crew_place.mpr ⟨x, hx, Meta.place_of_ne hcur⟩)

/-- In the chained round the first client has been in one session, which is complete and over, and
is in its second one. -/
theorem client_sessions_chain : ∃ past : List (UInt32 × ℕ),
    (chainStart.after 6).co.trace.filter (fun e => e.client = some 0) =
      past.flatMap (fun q => (sessionScript 0 q.1).take (q.2 + 1)) ∧
    past.getLast? = some (2, 2) ∧ (1, 8) ∈ past ∧ IsOver 1 (chainStart.after 6).co.trace := by
  have hreach := (chain_atHead (n := 6) (by decide)).reach
  obtain ⟨ms, -, past, hfilter, -, -, hfull, hover, hlast⟩ := client_sessions hreach 0
  have hcur : ∃ x, (chainStart.after 6).co.metas[0]? = some x ∧ x.currentMId = 2 ∧
      x.state.moves = 2 := by
    decide +kernel
  obtain ⟨x, hx, hm, hst⟩ := hcur
  have hsecond := hlast x hx (hm ▸ by decide)
  rw [hm, hst] at hsecond
  -- the first session is that of the first claim
  have hclaimed : .claimed 0 1 ∈
      (chainStart.after 6).co.trace.filter (fun e => e.client = some 0) := by
    decide +kernel
  rw [hfilter] at hclaimed
  obtain ⟨q, hq, hscript⟩ := List.mem_flatMap.mp hclaimed
  have hid : q.1 = 1 := by
    have hmem := List.mem_of_mem_take hscript
    simpa [sessionScript, eq_comm] using hmem
  have hlen := hfull q hq (hid ▸ by decide +kernel)
  obtain rfl : q = (1, 8) := Prod.ext hid (Nat.succ.inj hlen)
  refine ⟨past, hfilter, hsecond, hq, (hover _ hq).resolve_right fun h => ?_⟩
  rw [hsecond] at h
  exact absurd h.1 (by decide)

/-! How long the history gets. -/

/-- The clients the history speaks of are in the client array. -/
def ClientsBelow (s : Coord) : Prop :=
  ∀ e ∈ s.trace, ∀ c, e.client = some c → c < s.metas.length

theorem ClientsBelow.snoc {s t : Coord} (h : ClientsBelow s)
    (hlen : t.metas.length = s.metas.length) (htrace : t.trace = s.trace ++ [e])
    (he : ∀ c, e.client = some c → c < s.metas.length) : ClientsBelow t := by
  intro e' he' c hc
  rw [hlen]
  rw [htrace] at he'
  rcases List.mem_append.mp he' with he' | he'
  · exact h e' he' c hc
  · exact he c (List.mem_singleton.mp he' ▸ hc)

theorem Effect.clientsBelow {begun : UInt32 → Prop} {a : Answer} {s t : Coord}
    (h : Effect begun a s t) (hs : ClientsBelow s) : ClientsBelow t := by
  have hlt : ∀ {c : ℕ} {x : Meta}, s.metas[c]? = some x → c < s.metas.length :=
    fun hx => (List.getElem?_eq_some_iff.mp hx).1
  cases h with
  | still hmetas _ _ htrace =>
    intro e he c hc
    rw [hmetas]
    exact hs e (htrace ▸ he) c hc
  | picks _ _ ht => exact hs.snoc (by rw [ht]) (by rw [ht]) (by simp [Event.client])
  | claims hx _ _ ht =>
    refine hs.snoc (by simp [ht, Coord.claim]) (by rw [ht]; rfl) fun c hc => ?_
    exact Option.some.inj hc ▸ hlt hx
  | enters _ ht => exact ht ▸ hs
  | sends hx _ _ ht | confirms hx _ ht =>
    refine hs.snoc (by simp [ht, Coord.move]) (by rw [ht]; rfl) fun c hc => ?_
    exact Option.some.inj hc ▸ hlt hx
  | resets _ _ _ ht => exact ht ▸ hs
  | ends he _ hmetas _ htrace =>
    refine hs.snoc (by simp [hmetas]) htrace fun c hc => ?_
    rcases he with rfl | rfl <;> cases hc

theorem Reach.clientsBelow (h : Reach r (p, s)) : ∃ ms table, Loaded r ms table ∧
    p.Holds table s.co ∧ ClientsBelow s.co := by
  refine Reach.induction (I := fun _ _ s => ClientsBelow s.co) (fun hs _ => ?_)
    (fun _ hc hm hI => (hm.effect hc).clientsBelow hI) h
  obtain ⟨-, -, -, -, -, -, htrace, -⟩ := Round.start_ok hs
  simp [ClientsBelow, htrace]

/-- The history is no longer than all that may happen once. -/
theorem Reach.length_trace_le (h : Reach r (p, s)) {ms : List Measurement}
    (hms : parseLines r.lines = .ok ms) :
    s.co.trace.length ≤ ms.length * (9 * s.co.metas.length + 2) := by
  obtain ⟨ms', table, hl, hholds, hbelow⟩ := h.clientsBelow
  obtain rfl : ms' = ms := Except.ok.inj (hl.parsed.symm.trans hms)
  have hco : Coherent table s.co := hholds.coherent.1
  have hlen := length_le_marks (fun _ => rfl) hco.runs (Finset.range s.co.metas.length)
    (ms'.map Measurement.id).toFinset ?_
  · rw [List.length_map, Finset.card_range,
      List.toFinset_card_of_nodup hl.accepted.ids_nodup, List.length_map] at hlen
    calc s.co.trace.length ≤ ms'.length * (s.co.metas.length * (2 * 4 + 1) + 2) := hlen
      _ = ms'.length * (9 * s.co.metas.length + 2) := by rw [Nat.mul_comm s.co.metas.length]
  · intro e' he'
    obtain ⟨e, he, rfl⟩ := List.mem_map.mp he'
    refine ⟨?_, ?_⟩
    · rw [List.mem_toFinset, ← hl.not_over_iff]
      exact not_over_of_mem (fun _ => rfl) hco.runs he'
    · have hphase : ∀ p : Phase, p.index ≤ 3 := fun p => by cases p <;> decide
      cases e with
      | started m | failed m | succeeded m => trivial
      | claimed c m => exact ⟨Finset.mem_range.mpr (hbelow _ he c rfl), Nat.zero_le _⟩
      | sent c m p =>
        have hle := hphase p
        exact ⟨Finset.mem_range.mpr (hbelow _ he c rfl), by omega⟩
      | confirmed c m p =>
        have hle := hphase p
        exact ⟨Finset.mem_range.mpr (hbelow _ he c rfl), by omega⟩

theorem Coherent.trace_nodup {s : Coord} (h : Coherent table s) : s.trace.Nodup := by
  have hnd := (marks_nodup (fun _ => rfl) h.runs).1
  rw [List.map_map] at hnd
  exact hnd.of_map

/-- Nothing happens twice in a round, and not more than the clients and the measurements of the
schedule allow for. -/
theorem history_bounded (h : Reach r (p, s)) : ∃ ms, parseLines r.lines = .ok ms ∧
    s.co.trace.Nodup ∧ s.co.trace.length ≤ ms.length * (9 * s.co.metas.length + 2) := by
  obtain ⟨ms, table, hl, hholds⟩ := h.holds
  exact ⟨ms, hl.parsed, hholds.coherent.1.trace_nodup, h.length_trace_le hl.parsed⟩

theorem history_bounded_twoClients : (twoClientsStart.after 5).co.trace.length ≤ 20 := by
  obtain ⟨ms, hms, -, hlen⟩ := history_bounded (twoClients_atHead (Nat.le_refl 5)).reach
  obtain rfl : twoClientsSchedule = ms :=
    Except.ok.inj (parseLines_twoClients.symm.trans hms)
  have hmetas : (twoClientsStart.after 5).co.metas.length = 2 := by decide +kernel
  rw [hmetas] at hlen
  exact hlen

/-- The bound is attained. -/
example : (twoClientsStart.after 5).co.trace.length = 20 := by decide +kernel

end
end Flashflow
