import Flashflow.Loop.Quiet

/-! Rules for the operations the loop is made of: access to the state, the end of a measurement,
and the commands to its clients. -/
namespace Flashflow
open Sched Program Arrays

section Access
variable {α : Type} {E : Abort → Loop → Prop} {s : Loop}

@[simp] theorem wp_co {Q : Coord → Loop → Prop} : wp co Q E s ↔ Q s.co s := by simp [co]

@[simp] theorem wp_modifyCo {f : Coord → Coord} {Q : Unit → Loop → Prop} :
    wp (modifyCo f) Q E s ↔ Q () { s with co := f s.co } := by simp [modifyCo]

@[simp] theorem wp_record {e : Event} {Q : Unit → Loop → Prop} : wp (record e) Q E s ↔
    Q () { s with co := { s.co with trace := s.co.trace ++ [e] } } := by simp [record]

@[simp] theorem wp_setMeta {c : ℕ} {x : Meta} {Q : Unit → Loop → Prop} : wp (setMeta c x) Q E s ↔
    Q () { s with co := { s.co with metas := s.co.metas.set c x } } := by simp [setMeta]

@[simp] theorem wp_numMetas {Q : ℕ → Loop → Prop} :
    wp numMetas Q E s ↔ Q s.co.metas.length s := by simp [numMetas]

@[simp] theorem wp_countFailed {Q : Unit → Loop → Prop} : wp countFailed Q E s ↔
    Q () { s with co := { s.co with countFailure := s.co.countFailure + 1 } } := by
  simp [countFailed]

/-- Whatever the answer is. -/
theorem wp_answer {Q : Answer → Loop → Prop} (h : ∀ a os, Q a { s with os := os }) :
    wp answer Q E s := by
  simp only [answer, wp_bind, wp_getState, wp_modifyState, wp_pure]
  exact h _ _

/-- Whatever the answer of the script is: it is the last one taken then. -/
theorem wp_answer_script {Q : Answer → Loop → Prop}
    (h : ∀ k os, os.script = s.os.script → os.tick = k + 1 →
      Q (s.os.script k) { s with os := os }) :
    wp answer Q E s := by
  simp only [answer, wp_bind, wp_getState, wp_modifyState, wp_pure]
  exact h _ _ rfl rfl

@[simp] theorem wp_metaAt {c : ℕ} {Q : Meta → Loop → Prop} : wp (metaAt c) Q E s ↔
    match s.co.metas[c]? with
    | some x => Q x s
    | none => E .outOfBounds s := by
  simp only [metaAt, wp_bind, wp_co]
  cases s.co.metas[c]? <;> simp

theorem wp_assertState {c : ℕ} {x : Meta} {st : CsmState} (hx : s.co.metas[c]? = some x)
    (hst : x.state = st) {Q : Unit → Loop → Prop} : wp (assertState c st) Q E s ↔ Q () s := by
  simp [assertState, hx, tcAssertState_eq hst]

theorem wp_schedCall {f : Msms → Except Panic (α × Msms)} {Q : α → Loop → Prop}
    (hok : ∀ a msms, f s.co.msms = .ok (a, msms) → Q a { s with co := { s.co with msms := msms } })
    (herr : ∀ p, f s.co.msms = .error p → E (.panic p) s) : wp (schedCall f) Q E s := by
  simp only [schedCall, wp_bind, wp_co]
  cases hf : f s.co.msms with
  | error p => simpa [Except.mapError] using herr p hf
  | ok r => simpa [Except.mapError] using hok r.1 r.2 hf

theorem wp_markDone {m : UInt32} (h : s.co.msms.stateOf m = some .inProgress)
    {Q : Unit → Loop → Prop} (hQ : ∀ msms, schedMarkDone m s.co.msms = .ok msms →
      Q () { s with co := { s.co with msms := msms } }) : wp (markDone m) Q E s := by
  obtain ⟨msms, hdone⟩ := schedMarkDone_of_inProgress h
  refine wp_schedCall (fun _ msms' hok => ?_) fun p herr => ?_
  · rw [hdone] at hok
    obtain rfl : msms = msms' := by simpa [Except.map] using hok
    exact hQ msms hdone
  · rw [hdone] at herr
    cases herr

end Access

variable {table : Msms} {s : Loop} {m : UInt32} {c : ℕ} {x : Meta}

/-! The end of a measurement. -/

/-- Releasing one client, whatever the operation before `tc_finished_with_meta` is. -/
def Releases (m : UInt32) (op : ℕ → LoopM Unit) (E : Abort → Loop → Prop) (s : Loop) : Prop :=
  ∀ (c : ℕ) (x : Meta) (t : Loop), x ∈ s.co.metas → t.co.metas[c]? = some x → x.currentMId = m →
    wp (do op c; finishedWithMeta c) (fun _ t' => t' = { t with co :=
      { t.co with metas := t.co.metas.set c x.idle,
                  openFds := t.co.openFds.filter fun n => (n : Int) ≠ x.fd } }) E t

theorem wp_finishedWithMeta {E : Abort → Loop → Prop} (hx : s.co.metas[c]? = some x)
    (hst : x.state.allows .invalid = true) (hfd : 0 ≤ x.fd) {Q : Unit → Loop → Prop} :
    wp (finishedWithMeta c) Q E s ↔ Q () { s with co :=
      { s.co with metas := s.co.metas.set c x.idle,
                  openFds := s.co.openFds.filter fun n => (n : Int) ≠ x.fd } } := by
  simp [finishedWithMeta, hx, tcFinishedWithMeta_eq hst hfd, closeFd]

theorem releases_markFailed {E : Abort → Loop → Prop} (h : Coherent table s.co) (hm : m ≠ 0) :
    Releases m markFailed E s := by
  intro c x t hmem hx hcur
  obtain ⟨-, ⟨hinv, hfailed⟩, hfd⟩ := h.working hmem (hcur ▸ hm)
  obtain ⟨hlt, -⟩ := List.getElem?_eq_some_iff.mp hx
  have hmark : tcMarkFailed x = .ok { x with state := .failed } :=
    tcChangeState_eq (CsmState.allows_failed hinv hfailed)
  have hx' : (t.co.metas.set c { x with state := .failed })[c]? =
      some { x with state := .failed } := by
    simp [hlt]
  simp only [markFailed, wp_bind, wp_metaAt, hx, hmark, fromExcept_ok, wp_pure, wp_setMeta]
  rw [wp_finishedWithMeta (x := { x with state := .failed }) hx' rfl hfd]
  simp [Meta.idle]

theorem releases_done {E : Abort → Loop → Prop} (h : Coherent table s.co) (hm : m ≠ 0)
    (hdone : ∀ x ∈ s.co.metas, x.currentMId = m → x.state = .done) :
    Releases m (fun c => assertState c .done) E s := by
  intro c x t hmem hx hcur
  have hst := hdone x hmem hcur
  rw [wp_bind, wp_assertState hx hst,
    wp_finishedWithMeta hx (by rw [hst]; rfl) (h.working hmem (hcur ▸ hm)).2.2]

/-- The loops that release all clients of a measurement. -/
theorem wp_releaseAll {E : Abort → Loop → Prop} {op : ℕ → LoopM Unit} (hop : Releases m op E s) :
    wp (forEach (fun c => do
      let x ← metaAt c
      if x.currentMId = m then do
        op c
        finishedWithMeta c) s.co.metas.length) (fun _ t => ∃ fds, t = { s with co :=
          { s.co with metas := s.co.metas.map (Meta.release m), openFds := fds } } ∧
        ∀ n ∈ s.co.openFds, (∀ x ∈ s.co.metas, x.currentMId = m → (n : Int) ≠ x.fd) → n ∈ fds)
      E s := by
  have hloop := wp_forEach (E := E) (n := s.co.metas.length) (s := s) (f := fun c => do
      let x ← metaAt c
      if x.currentMId = m then do
        op c
        finishedWithMeta c) (fun i t => ∃ fds, t = { s with co :=
          { s.co with metas := mapTo (Meta.release m) i s.co.metas, openFds := fds } } ∧
        ∀ n ∈ s.co.openFds, (∀ x ∈ s.co.metas, x.currentMId = m → (n : Int) ≠ x.fd) → n ∈ fds)
    ?_ ⟨s.co.openFds, by simp, fun n hn _ => hn⟩
  · simpa using hloop
  rintro c hc t ⟨fds, rfl, hfds⟩
  have hx : s.co.metas[c]? = some s.co.metas[c] := List.getElem?_eq_getElem hc
  have hx' := getElem?_mapTo (Meta.release m) hx
  have hmem : s.co.metas[c] ∈ s.co.metas := List.getElem_mem hc
  simp only [wp_bind, wp_metaAt, hx']
  by_cases hcur : s.co.metas[c].currentMId = m
  · rw [if_pos hcur]
    refine wp_conseq (hop c _ _ hmem hx' hcur) ?_
    rintro _ t' rfl
    have hrel : s.co.metas[c].idle = Meta.release m s.co.metas[c] := (if_pos hcur).symm
    refine ⟨_, by rw [hrel, mapTo_succ _ hx], fun n hn hne => ?_⟩
    exact List.mem_filter.mpr ⟨hfds n hn hne, by simpa using hne _ hmem hcur⟩
  · rw [if_neg hcur, wp_pure]
    exact ⟨fds, by rw [mapTo_succ_of_eq (Meta.release m) hx (if_neg hcur)], hfds⟩

/-- `measurement_failed` returns whatever its clients are doing. -/
theorem wp_measurementFailed_co {E : Abort → Loop → Prop} (h : Coherent table s.co)
    (hlive : s.co.msms.stateOf m = some .inProgress) :
    wp (measurementFailed m) (fun _ t => ∃ fds msms, schedMarkDone m s.co.msms = .ok msms ∧
      (∀ n ∈ s.co.openFds, (∀ x ∈ s.co.metas, x.currentMId = m → (n : Int) ≠ x.fd) → n ∈ fds) ∧
      t = { s with co := { s.co with
        metas := s.co.metas.map (Meta.release m), openFds := fds, msms := msms,
        known := removeKnown m s.co.known, trace := s.co.trace ++ [.failed m] } }) E s := by
  have hrel : Releases m markFailed E
      { s with co := { s.co with trace := s.co.trace ++ [.failed m] } } := by
    intro c x t hmem
    exact releases_markFailed (s := s) h (h.nonzero hlive) c x t hmem
  simp only [measurementFailed, wp_bind, wp_record, wp_numMetas]
  refine wp_conseq (wp_releaseAll hrel) ?_
  rintro _ t ⟨fds, rfl, hfds⟩
  rw [wp_bind]
  refine wp_markDone ?_ fun msms hdone => ?_
  · exact hlive
  rw [wp_modifyCo]
  exact ⟨fds, msms, hdone, hfds, rfl⟩

/-- What `measurement_failed` has done to a state in which everything is in order but for `m`. -/
structure Cleaned (table : Msms) (m : UInt32) (s t : Loop) : Prop where
  quiet : Quiet table { t.co with countFailure := t.co.countFailure + 1 }
  ended : Ended m (.failed m) s.co t.co
  marked : schedMarkDone m s.co.msms = .ok t.co.msms
  known : t.co.known = removeKnown m s.co.known
  countFailure : t.co.countFailure = s.co.countFailure
  os : t.os = s.os

theorem wp_measurementFailed_cleaned {E : Abort → Loop → Prop} (h : Rest table m s.co) :
    wp (measurementFailed m) (fun _ t => Cleaned table m s t) E s := by
  refine wp_conseq (wp_measurementFailed_co h.coherent h.live) ?_
  rintro _ t ⟨fds, msms, hdone, hfds, rfl⟩
  obtain ⟨hnd, hknown⟩ := removeKnown_spec h.nodup m
  refine ⟨h.ended (e := .failed m) ⟨rfl, hfds, schedMarkDone_moves hdone, rfl, rfl⟩ rfl (by simp)
    hnd hknown ?_, ⟨rfl, hfds, schedMarkDone_moves hdone, rfl, rfl⟩, hdone, rfl, rfl, rfl⟩
  exact ⟨by simp [h.counted.failures, Event.isFailed],
    by simp [h.counted.successes, Event.isSucceeded]⟩

/-- With the counter everything is in order again. -/
theorem wp_measurementFailed {E : Abort → Loop → Prop} (h : Rest table m s.co) :
    wp (measurementFailed m) (fun _ t =>
      Quiet table { t.co with countFailure := t.co.countFailure + 1 } ∧
      t.co.known = removeKnown m s.co.known ∧ t.os = s.os) E s :=
  wp_conseq (wp_measurementFailed_cleaned h) fun _ _ ht => ⟨ht.quiet, ht.known, ht.os⟩

end Flashflow
