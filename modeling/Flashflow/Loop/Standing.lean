import Flashflow.Loop.Points

/-! What holds at each point of the main loop, in every run. -/
namespace Flashflow
open Sched Program Arrays Outcome Matching

/-- A client of `m` waits for a reply. -/
def Observed (s : Coord) (m : UInt32) : Prop :=
  ∃ x ∈ s.metas, x.currentMId = m ∧ ∃ p : Phase, x.state = p.waits

/-- The measurements in front of index `i` are observed. -/
def ObservedBelow (s : Coord) (i : ℕ) : Prop :=
  ∀ k < i, ∀ m, s.known[k]? = some m → Observed s m

/-- A client of `m` has not been confirmed in the phase, or has gone on. -/
def Unsettled (s : Coord) (m : UInt32) (p : Phase) : Prop :=
  ∃ x ∈ s.metas, x.currentMId = m ∧ x.state ≠ p.reached

/-- In the loop over the known measurements, at `m` with index `i`, once the tests of the first `k`
stages have been passed. -/
structure InTurn (table : Msms) (i : ℕ) (m : UInt32) (k : ℕ) (s : Coord) : Prop where
  quiet : Quiet table s
  index : s.known[i]? = some m
  below : ObservedBelow s i
  unsettled : ∀ p : Phase, p.index < k → Unsettled s m p

/-- In a pass over the clients of `m` that began in `s₀`, before client `j`. -/
structure InPass (table : Msms) (m : UInt32) (p : Phase) (e : Measurement) (s₀ : Coord) (j : ℕ)
    (s : Coord) : Prop where
  passing : Passing table m p s₀ j s
  known : m ∈ s₀.known
  entry : s₀.msms.get? m = some e
  hired : Hired e (classesOf s₀.metas m)

/-- While clients are claimed for the hosts. -/
structure Hiring (table : Msms) (m : UInt32) (wanted : List Slot) (s : Coord) : Prop where
  rest : Rest table m s
  fresh : m ∉ s.known
  connected : ∀ x ∈ s.metas, x.currentMId = m → x.state = .connected
  hired : ∃ e, s.msms.get? m = some e ∧ Hired e (classesOf s.metas m ++ wanted.map Slot.cls)

def Point.Holds (table : Msms) : Point → Coord → Prop
  | .head, s | .giveUp, s | .scan _, s | .pick, s => Quiet table s
  | .find m, s => Rest table m s ∧ m ∉ s.known ∧ ∀ x ∈ s.metas, x.currentMId ≠ m
  | .claim m wanted, s => Hiring table m wanted s
  | .greet m j, s => ∃ e s₀, InPass table m .auth e s₀ j s
  | .advance i, s => Quiet table s ∧ ObservedBelow s i
  | .check a i m q, s => InTurn table i m (a.phase.index - 1) s ∧
      ∃ e, s.msms.get? m = some e ∧ (q = e.params ∨ Observed s m)
  | .tell a i m j q, s => ∃ e s₀, InPass table m a.phase e s₀ j s ∧ s₀.known[i]? = some m ∧
      ObservedBelow s₀ i ∧ q = e.params.assigned s₀.metas m j
  | .ready i m _, s => InTurn table i m 2 s
  | .start i m j numTold _, s => ∃ e s₀, InPass table m .measure e s₀ j s ∧
      s₀.known[i]? = some m ∧ ObservedBelow s₀ i ∧ numTold = (seen s₀.metas m j).length
  | .done i m, s => InTurn table i m 3 s
  | .failing m next, s => Rest table m s ∧ ∀ t, Quiet table t → next.Holds table t
  | .poll, s => Quiet table s ∧ ∀ m ∈ s.known, Observed s m
  | .events f fds, s => Quiet table s ∧ fds.Nodup ∧
      ∃ s₀, Coherent table s₀ ∧ f = fdSets s₀.metas ∧ Pending s₀ s fds

section
variable {table : Msms} {s t : Loop} {s₀ : Coord} {m m' : UInt32} {i j k : ℕ} {p : Phase}
  {e : Measurement} {q : MsmParams}

/-! Who is observed. -/

theorem Observed.congr {s s' : Coord} (h : Observed s m)
    (hkeep : ∀ (c : ℕ) (x : Meta), s.metas[c]? = some x → x.currentMId = m →
      s'.metas[c]? = some x) : Observed s' m := by
  obtain ⟨x, hx, hcur, hst⟩ := h
  obtain ⟨c, hc⟩ := List.mem_iff_getElem?.mp hx
  exact ⟨x, List.mem_of_getElem? (hkeep c x hc hcur), hcur, hst⟩

theorem ne_of_index {ids : List UInt32} (hnd : ids.Nodup) (hi : ids[i]? = some m) (hk : k < i)
    (hk' : ids[k]? = some m') : m' ≠ m := by
  rintro rfl
  obtain ⟨hlt, hget⟩ := List.getElem?_eq_some_iff.mp hi
  obtain ⟨hlt', hget'⟩ := List.getElem?_eq_some_iff.mp hk'
  have := (List.Nodup.getElem_inj_iff hnd).mp (hget'.trans hget.symm)
  omega

/-- What changes only clients of the measurement at `i` matters to nobody in front of it. -/
theorem ObservedBelow.congr {s s' : Coord} (h : ObservedBelow s i) (hnd : s.known.Nodup)
    (hi : s.known[i]? = some m)
    (hknown : ∀ k < i, ∀ m', s'.known[k]? = some m' → s.known[k]? = some m')
    (hkeep : ∀ (c : ℕ) (x : Meta), s.metas[c]? = some x → x.currentMId ≠ m →
      s'.metas[c]? = some x) : ObservedBelow s' i := by
  intro k hk m' hm'
  have hget := hknown k hk m' hm'
  have hne := ne_of_index hnd hi hk hget
  exact (h k hk m' hget).congr fun c x hx hcur => hkeep c x hx (hcur ▸ hne)

theorem ObservedBelow.succ {s : Coord} (h : ObservedBelow s i) (hi : s.known[i]? = some m)
    (hm : Observed s m) : ObservedBelow s (i + 1) := by
  intro k hk m' hm'
  rcases Nat.lt_succ_iff_lt_or_eq.mp hk with hlt | rfl
  · exact h k hlt m' hm'
  · rw [hi] at hm'
    exact Option.some.inj hm' ▸ hm

theorem getElem?_swapRemove {ids : List UInt32} (hk : k < i)
    (h : (swapRemove ids i)[k]? = some m) : ids[k]? = some m := by
  rw [swapRemove, List.getElem?_dropLast] at h
  split at h
  · rwa [List.getElem?_set_ne (by omega)] at h
  · cases h

/-- A measurement that no stage has found ready has a client that waits. -/
theorem InTurn.observed {s : Coord} (h : InTurn table i m 4 s) : Observed s m := by
  obtain ⟨p, hp⟩ := (h.quiet.staffed m (List.mem_of_getElem? h.index)).phase
  obtain ⟨x, hx, hcur, hst⟩ := h.unsettled p (by cases p <;> decide)
  exact ⟨x, hx, hcur, p, (hp x hx hcur).resolve_right hst⟩

/-- A test that fails. -/
theorem InTurn.succ {s : Coord} (h : InTurn table i m k s) {p : Phase} (hp : p.index = k)
    (hnot : ¬ ∀ x ∈ s.metas, x.currentMId = m → x.state = p.reached) :
    InTurn table i m (k + 1) s := by
  refine ⟨h.quiet, h.index, h.below, fun p' hp' => ?_⟩
  rcases Nat.lt_succ_iff_lt_or_eq.mp hp' with hlt | heq
  · exact h.unsettled p' hlt
  · obtain rfl : p' = p := Phase.index_injective (heq.trans hp.symm)
    simpa [Unsettled] using hnot

/-! Passes. -/

theorem InPass.start {s : Coord} (h : Rest table m s) (hm : m ∈ s.known)
    (hall : ∀ x ∈ s.metas, x.currentMId = m → x.state = p.before)
    (he : s.msms.get? m = some e) (hired : Hired e (classesOf s.metas m)) :
    InPass table m p e s 0 s := ⟨.start h hall, hm, he, hired⟩

theorem InPass.below {s : Coord} (h : InPass table m p e s₀ j s) (hi : s₀.known[i]? = some m)
    (hb : ObservedBelow s₀ i) : ObservedBelow s i :=
  hb.congr (h.passing.known ▸ h.passing.rest.nodup) hi
    (fun _ _ _ hm' => h.passing.known ▸ hm') h.passing.others

/-- At the end of a pass all clients of the measurement wait. -/
theorem InPass.finish {s : Coord} (h : InPass table m p e s₀ s.metas.length s) :
    Quiet table s ∧ (∀ k, ∀ p' : Phase, p'.index < k → Unsettled s m p') ∧ Observed s m := by
  have hpass := h.passing
  rw [hpass.length] at hpass
  obtain ⟨hquiet, hknown, hwaits⟩ := hpass.finish h.known h.entry h.hired
  obtain ⟨x, hx, hcur⟩ := exists_owner
    (hquiet.hired (hknown ▸ h.known) (hpass.msms ▸ h.entry))
  refine ⟨hquiet, fun k p' _ => ⟨x, hx, hcur, ?_⟩, x, hx, hcur, p, hwaits x hx hcur⟩
  rw [hwaits x hx hcur]
  exact (Phase.reached_ne_waits p' p).symm

theorem InPass.inTurn {s : Coord} (h : InPass table m p e s₀ s.metas.length s)
    (hi : s₀.known[i]? = some m) (hb : ObservedBelow s₀ i) (k : ℕ) : InTurn table i m k s := by
  obtain ⟨hquiet, hunsettled, -⟩ := h.finish
  exact ⟨hquiet, h.passing.known ▸ hi, h.below hi hb, hunsettled k⟩

theorem sends_message (a : Pass) (fp : Bytes) (slot : Slot) :
    Sends a.phase (slot.nconn ≠ 1) (a.message fp slot) := by
  cases a with
  | connect => exact sends_connect fp slot.nconn
  | setBw => exact sends_setBw _ slot.bw

/-! Small programs. -/

theorem answer_co {a : Answer} (h : exec answer s = (.ok a, t)) : t.co = s.co :=
  wp_returns (Q := fun _ t => t.co = s.co) (E := fun _ _ => True) (wp_answer fun _ _ => rfl) h

theorem isTotally_ok {st : CsmState} {b : Bool} (h : exec (isTotally st m) s = (.ok b, t)) :
    t = s ∧ (b = true ↔ ∀ x ∈ s.co.metas, x.currentMId = m → x.state = st) := by
  refine wp_returns (Q := fun b t => t = s ∧
    (b = true ↔ ∀ x ∈ s.co.metas, x.currentMId = m → x.state = st)) (E := fun _ _ => True)
    (wp_isTotally (fun hall => ?_) fun hnot => ?_) h
  · exact ⟨rfl, fun _ => hall, fun _ => rfl⟩
  · exact ⟨rfl, fun hb => absurd hb (by decide), fun hall => absurd hall hnot⟩

theorem assertFillParams_ok (h : Quiet table s.co) (hm : m ∈ s.co.known)
    (hp : exec (assertFillParams m) s = (.ok q, t)) : t = s ∧ ∃ e, s.co.msms.get? m = some e ∧
      Hired e (classesOf s.co.metas m) ∧ q = e.params :=
  wp_returns (Q := fun q t => t = s ∧ ∃ e, s.co.msms.get? m = some e ∧
      Hired e (classesOf s.co.metas m) ∧ q = e.params) (E := fun _ _ => True)
    (wp_assertFillParams h hm fun e he hired => ⟨rfl, e, he, hired, rfl⟩) hp

theorem fillParams_ok {ok : Bool} (he : s.co.msms.get? m = some e)
    (hp : exec (fillParams m) s = (.ok (ok, q), t)) : t = s ∧ e.NulFree ∧ q = e.params ∧
      (ok = true → e.dur ≠ 0 ∧ e.hosts ≠ []) := by
  refine wp_returns (x := fillParams m) (Q := fun r t => t = s ∧ e.NulFree ∧ r.2 = e.params ∧
      (r.1 = true → e.dur ≠ 0 ∧ e.hosts ≠ [])) (E := fun _ _ => True) ?_ hp
  rw [fillParams, wp_bind, wp_co]
  cases hfill : fillMsmParams m s.co.msms with
  | error p => trivial
  | ok r =>
    have hnul := fillMsmParams_nulFree he hfill
    rw [fillMsmParams_eq he hnul] at hfill
    obtain rfl := Except.ok.inj hfill
    exact ⟨rfl, hnul, rfl, fun hok => by simpa using hok⟩

/-! The moves that start measurements. -/

theorem observedBelow_zero (s : Coord) : ObservedBelow s 0 :=
  fun _ hk => absurd hk (Nat.not_lt_zero _)

theorem holds_fails {next : Point} (h : (Point.failing m next).Holds table s.co)
    (hx : exec (do
      measurementFailed m
      countFailed) s = (.ok (), t)) : next.Holds table t.co := by
  obtain ⟨hrest, hnext⟩ := h
  have hfail : wp (do
      measurementFailed m
      countFailed) (fun _ t => Quiet table t.co) (fun _ _ => True) s := by
    rw [wp_bind]
    exact wp_conseq (wp_measurementFailed hrest) fun _ u hu => hu.1
  exact hnext _ (wp_returns hfail hx)

theorem holds_picked (h : Quiet table s.co) {a : Answer} {n : UInt32} {u : Loop}
    (ha : exec answer s = (.ok a, t))
    (hn : exec (schedCall (schedNext a.rank a.now)) t = (.ok n, u)) :
    (¬ n > 0 → (Point.advance 0).Holds table u.co) ∧
      (n > 0 → (Point.find n).Holds table { u.co with trace := u.co.trace ++ [.started n] }) := by
  have ht : Quiet table t.co := answer_co ha ▸ h
  have hwp : wp (schedCall (schedNext a.rank a.now)) (fun n u =>
      (¬ n > 0 → (Point.advance 0).Holds table u.co) ∧
        (n > 0 → (Point.find n).Holds table { u.co with trace := u.co.trace ++ [.started n] }))
      (Aborted table) t := by
    refine wp_schedNext ht ?_ fun n msms hne hmv => ?_
    · exact ⟨fun _ => ⟨ht, observedBelow_zero _⟩, fun h0 => absurd h0 (by decide)⟩
    · have hpos : n > 0 := UInt32.pos_iff_ne_zero.mpr hne
      exact ⟨fun hnot => absurd hpos hnot, fun _ => ⟨ht.start hmv, ht.fresh hne hmv⟩⟩
  exact wp_returns hwp hn

theorem holds_find (h : (Point.find m).Holds table s.co) {b : Bool}
    (hp : exec (fillParams m) s = (.ok (b, q), t)) :
    if b then (Point.claim m q.slots).Holds table t.co
    else (Point.failing m (.advance 0)).Holds table t.co := by
  obtain ⟨hrest, hnew, hnone⟩ := h
  obtain ⟨e, he, -⟩ := Option.map_eq_some_iff.mp hrest.live
  obtain ⟨rfl, hnul, rfl, hok⟩ := fillParams_ok he hp
  cases b with
  | false => exact ⟨hrest, fun u hu => ⟨hu, observedBelow_zero _⟩⟩
  | true =>
    obtain ⟨hdur, hhosts⟩ := hok rfl
    have hempty : classesOf t.co.metas m = [] := by
      simpa [classesOf, List.filter_eq_nil_iff] using hnone
    refine ⟨hrest, hnew, fun x hx hcur => absurd hcur (hnone x hx), e, he, hnul, hdur, hhosts, ?_⟩
    rw [hempty, List.nil_append, params_classes]

theorem holds_claim {slot : Slot} {rest : List Slot}
    (h : (Point.claim m (slot :: rest)).Holds table s.co) {r : Option ℕ}
    (hr : exec (nextAvailable slot.cls) s = (.ok r, t)) : match r with
    | none => (Point.failing m (.advance 0)).Holds table t.co
    | some c => ∀ x, t.co.metas[c]? = some x → (Point.claim m rest).Holds table { t.co with
        metas := t.co.metas.set c { x with currentMId := m },
        trace := t.co.trace ++ [.claimed c m] } := by
  obtain ⟨hrest, hnew, hconn, e, he, hired⟩ := h
  obtain ⟨fds, hsub, ht⟩ := wp_returns (E := fun _ _ => True)
    (wp_nextAvailable hrest.coherent slot.cls) hr
  cases r with
  | none =>
    refine ⟨?_, fun u hu => ⟨hu, observedBelow_zero _⟩⟩
    rw [ht]
    exact hrest.leak hsub
  | some c =>
    intro y hy
    obtain ⟨x, n, hx, hcls, hcur, hn, ht⟩ := ht
    obtain ⟨hlt, -⟩ := List.getElem?_eq_some_iff.mp hx
    obtain ⟨hclaim, hall, hperm⟩ := hrest.claimed hsub hx hcur hn hconn
    obtain rfl : y = { x with fd := (n : ℕ), state := .connected } := by
      rw [ht] at hy
      simpa [hlt] using hy.symm
    have hco := claimed_eq m ht
    have hholds : Hiring table m rest (Coord.claim { s.co with openFds := fds } c x n m) := by
      refine ⟨hclaim, hnew, hall, e, he, hired.nulFree, hired.dur, hired.hosts, ?_⟩
      apply (hperm.append_right (rest.map Slot.cls)).trans
      rw [List.append_assoc, hcls]
      exact hired.classes
    rwa [← hco] at hholds

theorem holds_staffed {s : Coord} (h : (Point.claim m []).Holds table s) :
    (Point.greet m 0).Holds table { s with known := s.known ++ [m] } := by
  obtain ⟨hrest, hnew, hconn, e, he, hired⟩ := h
  have henter := hrest.enter hnew
  refine ⟨e, _, InPass.start henter (by simp) hconn he ?_⟩
  simpa using hired

theorem holds_greet (h : (Point.greet m j).Holds table s.co) (hj : j < s.co.metas.length)
    {r : Turn Unit Unit} (hr : exec (authTurn m j) s = (.ok r, t)) : match r with
    | .next _ => (Point.greet m (j + 1)).Holds table t.co
    | .leave _ => (Point.failing m (.advance 0)).Holds table t.co := by
  obtain ⟨e, s₀, hpass⟩ := h
  have hturn := wp_returns (wp_authTurn (hpass.passing.length ▸ hj) hpass.passing) hr
  cases r with
  | next => exact ⟨e, s₀, hturn, hpass.known, hpass.entry, hpass.hired⟩
  | leave => exact ⟨hturn.1, fun u hu => ⟨hu, observedBelow_zero _⟩⟩

/-! The moves that advance the known measurements. -/

theorem Phase.before_ne_waits (p p' : Phase) : p.before ≠ p'.waits := by
  cases p <;> cases p' <;> decide

theorem holds_turn (h : (Point.advance i).Holds table s.co) (hi : s.co.known[i]? = some m)
    (hp : exec (assertFillParams m) s = (.ok q, t)) :
    (Point.check .connect i m q).Holds table t.co := by
  obtain ⟨hquiet, hb⟩ := h
  obtain ⟨rfl, e, he, -, rfl⟩ := assertFillParams_ok hquiet (List.mem_of_getElem? hi) hp
  exact ⟨⟨hquiet, hi, hb, fun _ hk => absurd hk (Nat.not_lt_zero _)⟩, e, he, .inl rfl⟩

theorem holds_advanced {s : Coord} (h : (Point.advance i).Holds table s) (hi : s.known[i]? = none) :
    Point.poll.Holds table s := by
  obtain ⟨hquiet, hb⟩ := h
  refine ⟨hquiet, fun m hm => ?_⟩
  obtain ⟨k, hk⟩ := List.mem_iff_getElem?.mp hm
  have hlen := List.getElem?_eq_none_iff.mp hi
  obtain ⟨hlt, -⟩ := List.getElem?_eq_some_iff.mp hk
  exact hb k (by omega) m hk

/-- After the stage of a pass that has not failed. -/
theorem holds_next {a : Pass} {s : Coord} (h : InTurn table i m a.phase.index s)
    (he : s.msms.get? m = some e) (hq : q = e.params ∨ Observed s m) :
    (a.next i m q).Holds table s := by
  cases a with
  | connect => exact ⟨h, e, he, hq⟩
  | setBw => exact h

theorem holds_check {a : Pass} (h : (Point.check a i m q).Holds table s.co) {b : Bool}
    (hb : exec (isTotally a.phase.before m) s = (.ok b, t)) :
    if b then (Point.tell a i m 0 q).Holds table t.co else (a.next i m q).Holds table t.co := by
  obtain ⟨hturn, e, he, hq⟩ := h
  obtain ⟨rfl, hiff⟩ := isTotally_ok hb
  have hm := List.mem_of_getElem? hturn.index
  have hired := hturn.quiet.hired hm he
  cases b with
  | true =>
    have hall := hiff.mp rfl
    -- a client that waits is not ready for the stage
    have hq' : q = e.params := by
      apply hq.resolve_right
      rintro ⟨x, hx, hcur, p', hst⟩
      exact Phase.before_ne_waits _ _ ((hall x hx hcur).symm.trans hst)
    refine ⟨e, t.co, .start (hturn.quiet.rest hm) hm hall he hired, hturn.index, hturn.below, ?_⟩
    rw [hq', MsmParams.assigned, seen_zero, serve_nil]
  | false =>
    have hnot : ¬ ∀ x ∈ t.co.metas, x.currentMId = m → x.state = a.phase.before := by
      simpa using hiff
    cases a with
    | connect => exact holds_next (a := .connect) (hturn.succ (p := .auth) rfl hnot) he hq
    | setBw => exact holds_next (a := .setBw) (hturn.succ (p := .connect) rfl hnot) he hq

theorem holds_tell {a : Pass} (h : (Point.tell a i m j q).Holds table s.co)
    (hj : j < s.co.metas.length) {r : Turn MsmParams Unit}
    (hr : exec (assignTurn m a.phase.waits (a.tell q.fp) j q) s = (.ok r, t)) : match r with
    | .next q' => (Point.tell a i m (j + 1) q').Holds table t.co
    | .leave _ => (Point.failing m .head).Holds table t.co := by
  obtain ⟨e, s₀, hpass, hi, hb, rfl⟩ := h
  have hturn := wp_returns (wp_assignTurn (sends_message a _) (hpass.passing.length ▸ hj)
    hpass.passing hpass.entry hpass.hired) hr
  cases r with
  | next q' => exact ⟨e, s₀, ⟨hturn.1, hpass.known, hpass.entry, hpass.hired⟩, hi, hb, hturn.2⟩
  | leave => exact ⟨hturn.1, fun _ hu => hu⟩

theorem holds_allTold {a : Pass} {s : Coord}
    (h : (Point.tell a i m s.metas.length q).Holds table s) : (a.next i m q).Holds table s := by
  obtain ⟨e, s₀, hpass, hi, hb, -⟩ := h
  have hturn := hpass.inTurn hi hb a.phase.index
  exact holds_next hturn (hpass.passing.msms ▸ hpass.entry) (.inr hpass.finish.2.2)

theorem holds_begin (h : (Point.ready i m q).Holds table s.co) {a : Answer} {u v : Loop}
    (hb : exec (isTotallyBwSet m) s = (.ok true, t)) (ha : exec answer t = (.ok a, u))
    (hr : exec (schedCall fun s => (schedResetFailsafeStop a.now m s).map fun s => ((), s)) u =
      (.ok (), v)) : (Point.start i m 0 0 q).Holds table v.co := by
  have hturn : InTurn table i m 2 s.co := h
  obtain ⟨rfl, hiff⟩ := isTotally_ok hb
  have hm := List.mem_of_getElem? hturn.index
  have hu : u.co = t.co := answer_co ha
  have hrest : Rest table m u.co := hu ▸ hturn.quiet.rest hm
  obtain ⟨msms, rfl, hst, hplan⟩ := wp_returns (wp_resetFailsafeStop hrest) hr
  rw [hu] at hst hplan ⊢
  obtain ⟨e, he, hired⟩ := (hturn.quiet.staffed m hm).hired
  obtain ⟨e', he', hp⟩ := exists_planned (hplan m) he
  refine ⟨e', _, .start ((hturn.quiet.rest hm).retable hst hplan) hm (hiff.mp rfl) he'
    (hired.of_plan hp), hturn.index, hturn.below, ?_⟩
  rw [seen_zero, List.length_nil]

theorem holds_noBegin (h : (Point.ready i m q).Holds table s.co)
    (hb : exec (isTotallyBwSet m) s = (.ok false, t)) : (Point.done i m).Holds table t.co := by
  obtain ⟨rfl, hiff⟩ := isTotally_ok hb
  have hnot : ¬ ∀ x ∈ t.co.metas, x.currentMId = m → x.state = .bwSet := by simpa using hiff
  exact InTurn.succ (p := .setBw) h rfl hnot

theorem holds_start {n : ℕ} (h : (Point.start i m j n q).Holds table s.co)
    (hj : j < s.co.metas.length) {r : Turn ℕ Unit}
    (hr : exec (startTurn m q.dur j n) s = (.ok r, t)) : match r with
    | .next n' => (Point.start i m (j + 1) n' q).Holds table t.co
    | .leave _ => (Point.failing m .head).Holds table t.co := by
  obtain ⟨e, s₀, hpass, hi, hb, rfl⟩ := h
  have hturn := wp_returns (wp_startTurn (hpass.passing.length ▸ hj) hpass.passing q.dur) hr
  cases r with
  | next n' => exact ⟨e, s₀, ⟨hturn.1, hpass.known, hpass.entry, hpass.hired⟩, hi, hb, hturn.2⟩
  | leave => exact ⟨hturn, fun _ hu => hu⟩

theorem holds_allStarted {n : ℕ} {s : Coord}
    (h : (Point.start i m s.metas.length n q).Holds table s) : (Point.done i m).Holds table s := by
  obtain ⟨e, s₀, hpass, hi, hb, -⟩ := h
  exact hpass.inTurn hi hb 3

theorem holds_done (h : (Point.done i m).Holds table s.co) {b : Bool}
    (hb : exec (doneStage i m) s = (.ok b, t)) :
    (Point.advance (if b then i else i + 1)).Holds table t.co := by
  have hturn : InTurn table i m 3 s.co := h
  have hpost := wp_returns (wp_doneStage hturn.quiet hturn.index) hb
  cases b with
  | true =>
    obtain ⟨hquiet, hknown, hmetas⟩ := hpost
    refine ⟨hquiet, hturn.below.congr hturn.quiet.nodup hturn.index (fun k hk m' hm' => ?_)
      fun c x hx hcur => ?_⟩
    · rw [hknown] at hm'
      exact getElem?_swapRemove hk hm'
    · rw [hmetas, List.getElem?_map, hx, Option.map_some, Meta.release, if_neg hcur]
  | false =>
    obtain ⟨rfl, hnot⟩ := hpost
    have hobs := (hturn.succ (p := .measure) rfl hnot).observed
    exact ⟨hturn.quiet, hturn.below.succ hturn.index hobs⟩

/-! The moves that handle replies. -/

theorem holds_timeout (h : Point.poll.Holds table s.co) {fds : List Int} {r : Option (List Int)}
    (hr : exec (epollWait fds) s = (.ok r, t)) (n : ℕ) :
    Quiet table { t.co with loopsWithoutProgress := n } := by
  have ht : t.co = s.co := (wp_returns (E := fun _ _ => True) wp_epollWait hr).1
  exact Quiet.loops (ht ▸ h.1) n

theorem holds_wake (h : Point.poll.Holds table s.co) {fds : List Int}
    (hr : exec (epollWait (fdSets s.co.metas).interesting) s = (.ok (some fds), t)) :
    (Point.events (fdSets s.co.metas) fds).Holds table { t.co with loopsWithoutProgress := 0 } := by
  obtain ⟨ht, hready⟩ := wp_returns (E := fun _ _ => True) wp_epollWait hr
  obtain ⟨hnd, hmem⟩ := hready fds rfl
  have hp : Pending s.co t.co fds := by
    rw [ht]
    exact pending_start hmem
  exact ⟨holds_timeout h hr 0, hnd, s.co, h.1.coherent, rfl, hp⟩

/-- The set a descriptor is found in is that of the client's state. -/
theorem phaseOf_of_waits {x : Meta} {c : ℕ} (h : Coherent table s₀) (hx : s₀.metas[c]? = some x)
    (hst : x.state = p.waits) : (fdSets s₀.metas).phaseOf x.fd = some p := by
  have hfd := h.fd_of_waits (List.mem_of_getElem? hx) hst
  simp only [FdSets.phaseOf, fdSets, mem_fdsIn h hx hfd, hst]
  cases p <;> simp [Phase.waits]

/-- What a handler does to the client it is for. One that reports a failure has changed nothing. -/
theorem wp_handler {x : Meta} {c : ℕ} (h : Quiet table s.co) (hx : s.co.metas[c]? = some x)
    (hst : x.state = p.waits) :
    wp (p.handler c) (fun ok t =>
      ok = true ∧ t.co = s.co.move c x p.reached (.confirmed c x.currentMId p) ∨
        t.co = s.co ∧ (ok = true → p = .measure)) (Aborted table) s := by
  have hreply : ∀ {f : Option Bytes → (ℕ → UInt8) → Meta → Except Abort (Bool × Meta)},
      Confirms p f → wp (reply p f c) (fun ok t =>
        ok = true ∧ t.co = s.co.move c x p.reached (.confirmed c x.currentMId p) ∨
          t.co = s.co ∧ (ok = true → p = .measure)) (Aborted table) s := by
    intro f hf
    apply wp_conseq (wp_reply hf h hx hst)
    rintro (_ | _) t ht
    · exact .inr ⟨ht, fun hok => absurd hok Bool.false_ne_true⟩
    · exact .inl ⟨rfl, ht⟩
  cases p with
  | auth => exact hreply confirms_auth
  | connect => exact hreply confirms_connect
  | setBw => exact hreply confirms_setBw
  | measure =>
    rw [Phase.handler, wp_bind, wp_metaAt, hx]
    simp only [wp_bind]
    apply wp_assertFillParams h (h.known_of_waits hx hst)
    intro e he hired
    apply wp_conseq (wp_outputResult h hx hst)
    intro ok t ht
    exact ht.symm.imp_right fun hsame => ⟨hsame, fun _ => trivial⟩

theorem handler_failed {x : Meta} {c : ℕ} (h : Quiet table s.co) (hx : s.co.metas[c]? = some x)
    (hst : x.state = p.waits) (hr : exec (p.handler c) s = (.ok false, t)) : t.co = s.co := by
  rcases wp_returns (wp_handler h hx hst) hr with ⟨hyes, -⟩ | ⟨hsame, -⟩
  · cases hyes
  · exact hsame

/-- The client of the next event has not changed since the sets were built. -/
theorem pending_head {f : FdSets} {fd : Int} {fds : List Int} {c : ℕ} {s : Coord}
    (h : (Point.events f (fd :: fds)).Holds table s)
    (hc : s.metas.findIdx? (fun x => x.fd = fd) = some c) : ∃ s₀ x p, Coherent table s₀ ∧
      f = fdSets s₀.metas ∧ Pending s₀ s (fd :: fds) ∧ s₀.metas[c]? = some x ∧
      s.metas[c]? = some x ∧ x.fd = fd ∧ x.state = Phase.waits p := by
  obtain ⟨hquiet, -, s₀, h₀, hf, hpend⟩ := h
  obtain ⟨c', x, p, hx₀, hx, hfd, hst⟩ := hpend fd List.mem_cons_self
  obtain ⟨hlt, hget, -⟩ := List.findIdx?_eq_some_iff_getElem.mp hc
  have hpos := hquiet.coherent.fd_of_waits (List.mem_of_getElem? hx) hst
  have hfd' : s.metas[c].fd = x.fd := (of_decide_eq_true hget).trans hfd.symm
  obtain rfl := hquiet.coherent.fds c c' _ x (List.getElem?_eq_getElem hlt) hx hfd'
    (hfd' ▸ hpos)
  exact ⟨s₀, x, p, h₀, hf, hpend, hx₀, hx, hfd, hst⟩

/-- A client whose event is handled waits for what its handler is for. -/
theorem waits_of_phaseOf {f : FdSets} {fd : Int} {fds : List Int} {c : ℕ} {x : Meta} {s : Coord}
    (h : (Point.events f (fd :: fds)).Holds table s)
    (hc : s.metas.findIdx? (fun x => x.fd = fd) = some c) (hx : s.metas[c]? = some x)
    (hp : f.phaseOf x.fd = some p) : x.state = p.waits := by
  obtain ⟨s₀, x', p', h₀, rfl, -, hx₀, hx', -, hst⟩ := pending_head h hc
  obtain rfl : x' = x := Option.some.inj (hx'.symm.trans hx)
  obtain rfl : p' = p := Option.some.inj ((phaseOf_of_waits h₀ hx₀ hst).symm.trans hp)
  exact hst

theorem handled_run {f : FdSets} {fd : Int} {fds : List Int} {c : ℕ}
    (h : (Point.events f (fd :: fds)).Holds table s.co)
    (hc : s.co.metas.findIdx? (fun x => x.fd = fd) = some c)
    (hr : exec (handleEvent f c) s = (.ok true, t)) : ∃ x p, s.co.metas[c]? = some x ∧
      x.state = Phase.waits p ∧ exec (p.handler c) s = (.ok true, t) := by
  obtain ⟨s₀, x, p, h₀, rfl, -, hx₀, hx, -, hst⟩ := pending_head h hc
  exact ⟨x, p, hx, hst, handled_handler hx (phaseOf_of_waits h₀ hx₀ hst) hr⟩

theorem holds_handled {f : FdSets} {fd : Int} {fds : List Int} {c : ℕ}
    (h : (Point.events f (fd :: fds)).Holds table s.co)
    (hc : s.co.metas.findIdx? (fun x => x.fd = fd) = some c)
    (hr : exec (handleEvent f c) s = (.ok true, t)) : (Point.events f fds).Holds table t.co := by
  obtain ⟨s₀, x, p, h₀, rfl, hpend, hx₀, hx, rfl, hst⟩ := pending_head h hc
  obtain ⟨hnew, hnd⟩ := List.nodup_cons.mp h.2.1
  obtain ⟨hquiet, hrep⟩ := wp_returns (wp_handleEvent h₀ h.1 hx₀ hx hst) hr
  exact ⟨hquiet, hnd, s₀, h₀, rfl, hpend.tail hx hnew (hrep rfl)⟩

theorem holds_denied {f : FdSets} {fd : Int} {fds : List Int} {c : ℕ} {x y : Meta} {p : Phase}
    (h : (Point.events f (fd :: fds)).Holds table s.co)
    (hc : s.co.metas.findIdx? (fun x => x.fd = fd) = some c) (hx : s.co.metas[c]? = some x)
    (hp : f.phaseOf x.fd = some p) (hr : exec (p.handler c) s = (.ok false, t))
    (hy : t.co.metas[c]? = some y) : (Point.failing y.currentMId .head).Holds table t.co := by
  have hst := waits_of_phaseOf h hc hx hp
  have hsame := handler_failed h.1 hx hst hr
  rw [hsame] at hy ⊢
  obtain rfl : x = y := Option.some.inj (hx.symm.trans hy)
  exact ⟨h.1.rest (h.1.known_of_waits hx hst), fun _ hu => hu⟩

/-! Every run. -/

/-- Each move leads from a point with its invariant to a point with its invariant. -/
theorem Move.holds {c c' : Config} (h : Move c c') (hc : c.1.Holds table c.2.co) :
    c'.1.Holds table c'.2.co := by
  cases h with
  | enter | overdue | scanned => exact hc
  | drop hm => exact ⟨Quiet.rest hc (List.mem_of_getLast? hm), fun _ hu => hu⟩
  | dropped => exact Quiet.loops hc 0
  | fails hx => exact holds_fails hc hx
  | late hi hp ha hnow hlate =>
    obtain ⟨rfl, -⟩ := assertFillParams_ok hc (List.mem_of_getElem? hi) hp
    rw [answer_co ha]
    exact ⟨Quiet.rest hc (List.mem_of_getElem? hi), fun _ hu => hu⟩
  | inTime hi hp ha hnow hlate =>
    obtain ⟨rfl, -⟩ := assertFillParams_ok hc (List.mem_of_getElem? hi) hp
    rw [answer_co ha]
    exact hc
  | idle ha hm hn => exact (holds_picked hc ha hm).1 hn
  | picked ha hm hn => exact (holds_picked hc ha hm).2 hn
  | unfit hp => exact holds_find (b := false) hc hp
  | fit hp => exact holds_find (b := true) hc hp
  | unclaimed hr => exact holds_claim (r := none) hc hr
  | claimed hr hx => exact holds_claim (r := some _) hc hr _ hx
  | staffed => exact holds_staffed hc
  | greeted hj hr => exact holds_greet (r := .next ()) hc hj hr
  | ungreeted hj hr => exact holds_greet (r := .leave ()) hc hj hr
  | allGreeted =>
    obtain ⟨e, s₀, hpass⟩ := hc
    exact ⟨hpass.finish.1, observedBelow_zero _⟩
  | turn hi hp => exact holds_turn hc hi hp
  | advanced hi => exact holds_advanced hc hi
  | pass hb => exact holds_check (b := true) hc hb
  | noPass hb => exact holds_check (b := false) hc hb
  | told hj hr => exact holds_tell (r := .next _) hc hj hr
  | untold hj hr => exact holds_tell (r := .leave ()) hc hj hr
  | allTold => exact holds_allTold hc
  | begin hb ha hr => exact holds_begin hc hb ha hr
  | noBegin hb => exact holds_noBegin hc hb
  | started hj hr => exact holds_start (r := .next _) hc hj hr
  | unstarted hj hr => exact holds_start (r := .leave ()) hc hj hr
  | allStarted => exact holds_allStarted hc
  | finished hb => exact holds_done (b := true) hc hb
  | unfinished hb => exact holds_done (b := false) hc hb
  | skip => exact hc.1
  | timeout hr => exact holds_timeout hc hr _
  | wake hr => exact holds_wake hc hr
  | handled hk hr => exact holds_handled hc hk hr
  | denied hk hx hp hr hy => exact holds_denied hc hk hx hp hr hy
  | drained => exact hc.1

theorem Walk.holds {c c' : Config} (h : Walk c c') (hc : c.1.Holds table c.2.co) :
    c'.1.Holds table c'.2.co := by
  induction h with
  | refl => exact hc
  | tail _ hm ih => exact hm.holds ih

/-- In every run each point has its invariant. -/
theorem Reach.holds {r : Round} {c : Config} (h : Reach r c) :
    ∃ ms table, Loaded r ms table ∧ c.1.Holds table c.2.co := by
  obtain ⟨s, hs, hwalk⟩ := h
  obtain ⟨ms, table, hl, hq⟩ := hs.quiet
  exact ⟨ms, table, hl, Walk.holds hwalk hq⟩

/-! The decision about `epoll_wait`. -/

theorem mem_interesting {x : Meta} {metas : List Meta} (hx : x ∈ metas) (hst : x.state = p.waits) :
    x.fd ∈ (fdSets metas).interesting := by
  have hin : x.fd ∈ fdsIn p.waits metas :=
    List.mem_map_of_mem (List.mem_filter.mpr ⟨hx, by simpa using hst⟩)
  exact mem_interesting_iff.mpr ⟨p, hin⟩

/-- No measurement waits unobserved: each known measurement has a client whose descriptor is
registered with epoll, so nothing is registered only if no measurement is known. -/
theorem known_observed {r : Round} (h : Reach r (.poll, s)) :
    (∀ m ∈ s.co.known, ∃ x ∈ s.co.metas, x.currentMId = m ∧
      (x.state = .authing ∨ x.state = .toldConnectTarget ∨ x.state = .settingBw ∨
        x.state = .measuring) ∧ x.fd ∈ (fdSets s.co.metas).interesting) ∧
    ((fdSets s.co.metas).interesting = [] → s.co.known = []) := by
  obtain ⟨ms, table, -, hquiet, hobs⟩ := h.holds
  have hall : ∀ m ∈ s.co.known, ∃ x ∈ s.co.metas, x.currentMId = m ∧
      (x.state = .authing ∨ x.state = .toldConnectTarget ∨ x.state = .settingBw ∨
        x.state = .measuring) ∧ x.fd ∈ (fdSets s.co.metas).interesting := by
    intro m hm
    obtain ⟨x, hx, hcur, p, hst⟩ := hobs m hm
    refine ⟨x, hx, hcur, ?_, mem_interesting hx hst⟩
    cases p <;> simp [hst, Phase.waits]
  refine ⟨hall, fun hnone => List.eq_nil_iff_forall_not_mem.mpr fun m hm => ?_⟩
  obtain ⟨x, -, -, -, hin⟩ := hall m hm
  rw [hnone] at hin
  exact List.not_mem_nil hin

/-- In the second turn both clients have been told to connect. -/
theorem known_observed_twoClients : ∃ s, Reach twoClients (.poll, s) ∧ 1 ∈ s.co.known ∧
    ∃ x ∈ s.co.metas, x.currentMId = 1 ∧ x.fd ∈ (fdSets s.co.metas).interesting := by
  have hx := exec_of_fst (x := turnToPoll) (s := twoClientsStart.after 1) (r := .ok true)
    (by decide +kernel)
  have hreach := AtHead.reach_poll (twoClients_atHead (n := 1) (by decide)) (by decide +kernel) hx
  have hknown : 1 ∈ (exec turnToPoll (twoClientsStart.after 1)).2.co.known := by decide +kernel
  obtain ⟨x, hmem, hcur, -, hin⟩ := (known_observed hreach).1 1 hknown
  exact ⟨_, hreach, hknown, x, hmem, hcur, hin⟩

end
end Flashflow
