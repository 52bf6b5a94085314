import Flashflow.Library.Arrays
import Flashflow.Loop.Invariant

/-! What the operations on one client, and the start and the end of a measurement, preserve. -/
namespace Flashflow
open Sched LabelledRun Arrays

/-! Arrays and the list of known measurements. -/

theorem swapRemove_perm {ids : List UInt32} {i : ℕ} {m : UInt32} (h : ids[i]? = some m) :
    (m :: swapRemove ids i).Perm ids := by
  obtain ⟨pre, post, rfl, rfl, hset⟩ := split_at h
  rw [swapRemove, hset]
  rcases List.eq_nil_or_concat post with rfl | ⟨post, z, rfl⟩
  · simpa using (List.perm_append_singleton m pre).symm
  · have hlast : (pre ++ m :: (post ++ [z])).getLastD 0 = z := by
      rw [← List.cons_append, ← List.append_assoc]
      exact List.getLastD_concat
    have hdrop : (pre ++ z :: (post ++ [z])).dropLast = pre ++ z :: post := by
      rw [← List.cons_append, ← List.append_assoc, List.dropLast_concat]
    rw [List.concat_eq_append, hlast, hdrop]
    have htail := (List.perm_append_singleton z post).symm.append_left pre
    exact (htail.cons m).trans List.perm_middle.symm

/-- A known measurement is removed where it is. -/
theorem removeKnown_cases (m : UInt32) (ids : List UInt32) : (m ∉ ids ∧ removeKnown m ids = ids) ∨
    ∃ k, ids[k]? = some m ∧ removeKnown m ids = swapRemove ids k := by
  unfold removeKnown
  split
  next hnone => exact .inl ⟨fun hm => by simpa using List.findIdx?_eq_none_iff.mp hnone m hm, rfl⟩
  next k hsome =>
    obtain ⟨hlt, hk, -⟩ := List.findIdx?_eq_some_iff_getElem.mp hsome
    refine .inr ⟨k, ?_, rfl⟩
    rw [List.getElem?_eq_getElem hlt]
    simpa using hk

theorem removeKnown_perm (m : UInt32) (ids : List UInt32) :
    (removeKnown m ids).Perm (ids.erase m) := by
  rcases removeKnown_cases m ids with ⟨hm, heq⟩ | ⟨k, hk, heq⟩
  · rw [heq, List.erase_of_not_mem hm]
  · have hperm := (swapRemove_perm hk).erase m
    rwa [List.erase_cons_head, ← heq] at hperm

theorem removeKnown_spec {ids : List UInt32} (hnd : ids.Nodup) (m : UInt32) :
    (removeKnown m ids).Nodup ∧ ∀ i, i ∈ removeKnown m ids ↔ i ∈ ids ∧ i ≠ m := by
  have hperm := removeKnown_perm m ids
  refine ⟨hperm.nodup_iff.mpr (hnd.erase m), fun i => ?_⟩
  rw [hperm.mem_iff, hnd.mem_erase_iff, and_comm]

theorem classesOf_set {metas : List Meta} {c : ℕ} {x : Meta} (hx : metas[c]? = some x) (x' : Meta)
    (hcls : x'.cls = x.cls) (hcur : x'.currentMId = x.currentMId) (i : UInt32) :
    classesOf (metas.set c x') i = classesOf metas i := by
  obtain ⟨pre, post, rfl, -, hset⟩ := split_at hx
  rw [hset, classesOf, classesOf, List.filter_append, List.filter_append, List.filter_cons,
    List.filter_cons, hcur]
  split <;> simp [hcls]

/-- A client that changes its measurement does not matter to the others. -/
theorem classesOf_set_other {metas : List Meta} {c : ℕ} {x x' : Meta} {i : UInt32}
    (hx : metas[c]? = some x) (h : x.currentMId ≠ i) (h' : x'.currentMId ≠ i) :
    classesOf (metas.set c x') i = classesOf metas i := by
  obtain ⟨pre, post, rfl, -, hset⟩ := split_at hx
  rw [hset, classesOf, classesOf]
  simp [h, h']

theorem classesOf_set_new {metas : List Meta} {c : ℕ} {x : Meta} {m : UInt32}
    (hx : metas[c]? = some x) (x' : Meta) (h : x.currentMId ≠ m) (h' : x'.currentMId = m)
    (hcls : x'.cls = x.cls) :
    (classesOf (metas.set c x') m).Perm (classesOf metas m ++ [x.cls]) := by
  obtain ⟨pre, post, rfl, -, hset⟩ := split_at hx
  rw [hset, classesOf, classesOf]
  simp only [List.filter_append, List.filter_cons, h, h', decide_true, decide_false, ↓reduceIte,
    Bool.false_eq_true, List.map_append, List.map_cons, hcls, List.append_assoc]
  exact (List.perm_append_singleton x.cls _).symm.append_left _

/-! One client makes a move in its measurement. -/

section
variable {table : Msms} {s s' : Coord} {m : UInt32} {c : ℕ} {x : Meta} {st : CsmState} {e : Event}

def Coord.move (s : Coord) (c : ℕ) (x : Meta) (st : CsmState) (e : Event) : Coord :=
  { s with metas := s.metas.set c { x with state := st }, trace := s.trace ++ [e] }

theorem mem_set {metas : List Meta} {x' y : Meta} (h : y ∈ metas.set c x') : y ∈ metas ∨ y = x' :=
  List.mem_or_eq_of_mem_set h

/-- Descriptors stay where they are. -/
theorem fd_of_set {metas : List Meta} {y : Meta} {i : ℕ} (hx : metas[c]? = some x) (x' : Meta)
    (hfd : x'.fd = x.fd) (h : (metas.set c x')[i]? = some y) :
    ∃ y₀, metas[i]? = some y₀ ∧ y₀.fd = y.fd := by
  rcases of_getElem?_set h with ⟨rfl, rfl⟩ | ⟨-, h⟩
  · exact ⟨x, hx, hfd.symm⟩
  · exact ⟨y, h, rfl⟩

theorem crew_set {x' : Meta} {p : UInt32 × ℕ} (hx : s.metas[c]? = some x) (hp : x'.place = some p)
    (hmetas : s'.metas = s.metas.set c x') (hst : statusOf s'.msms = statusOf s.msms) :
    s'.crew = s.crew.put c p := by
  obtain ⟨hlt, -⟩ := List.getElem?_eq_some_iff.mp hx
  have hplace : s'.crew.place = (s.crew.put c p).place := by
    funext i
    rw [Barrier.Crew.put_place]
    simp only [Coord.crew, hmetas, List.getElem?_set]
    by_cases hi : i = c
    · subst hi
      simp [hlt, hp]
    · simp [hi, Ne.symm hi]
  have hstatus : s'.crew.status = (s.crew.put c p).status := hst
  cases hc : s'.crew
  simp only [hc] at hplace hstatus
  rw [hplace, hstatus]

theorem Coherent.move (h : Coherent table s) (hx : s.metas[c]? = some x) (hcur : x.currentMId ≠ 0)
    (hst : st ≠ .invalid ∧ st ≠ .failed)
    (hstep : Barrier.Step 4 s.crew e.abs (s.crew.put c (x.currentMId, st.moves))) :
    Coherent table (s.move c x st e) := by
  have hmem := List.mem_of_getElem? hx
  have hw := h.working hmem hcur
  refine ⟨fun y hy => ?_, fun i j a b ha hb hab hpos => ?_, fun y hy hpos => ?_, h.plans,
    h.zero_over, h.strays, ?_⟩
  · rcases mem_set hy with hy | rfl
    · exact h.clients y hy
    · exact .inr ⟨hcur, hst, hw.2.2⟩
  · obtain ⟨a₀, ha₀, hfa⟩ := fd_of_set hx { x with state := st } rfl ha
    obtain ⟨b₀, hb₀, hfb⟩ := fd_of_set hx { x with state := st } rfl hb
    exact h.fds i j a₀ b₀ ha₀ hb₀ (by rw [hfa, hfb, hab]) (by rwa [hfa])
  · rcases mem_set hy with hy | rfl
    · exact h.opened y hy hpos
    · exact h.opened x hmem hpos
  · have hp : Meta.place { x with state := st } = some (x.currentMId, st.moves) := if_neg hcur
    have hcrew : (s.move c x st e).crew = s.crew.put c (x.currentMId, st.moves) :=
      crew_set hx hp rfl rfl
    have htrace : (s.move c x st e).trace.map Event.abs = s.trace.map Event.abs ++ [e.abs] := by
      simp [Coord.move]
    rw [htrace, hcrew]
    exact h.runs.snoc hstep

/-! A client is claimed for a measurement. -/

/-- The client `x` at `c` with a new connection, as a client of `m`. -/
def Meta.claimed (x : Meta) (n : ℕ) (m : UInt32) : Meta :=
  { x with fd := n, state := .connected, currentMId := m }

def Coord.claim (s : Coord) (c : ℕ) (x : Meta) (n : ℕ) (m : UInt32) : Coord :=
  { s with metas := s.metas.set c (x.claimed n m), openFds := n :: s.openFds,
           trace := s.trace ++ [.claimed c m] }

theorem Coherent.claim (h : Coherent table s) (hx : s.metas[c]? = some x) (hcur : x.currentMId = 0)
    {n : ℕ} (hn : n ∉ s.openFds) (hm : m ≠ 0) (hlive : s.msms.stateOf m = some .inProgress)
    (hall : ∀ y ∈ s.metas, y.currentMId = m → y.state = .connected) :
    Coherent table (s.claim c x n m) := by
  have hmem := List.mem_of_getElem? hx
  have hfresh : ∀ y ∈ s.metas, (n : Int) ≠ y.fd := by
    intro y hy heq
    have := h.opened y hy (by omega)
    rw [← heq, Int.toNat_natCast] at this
    exact hn this
  refine ⟨fun y hy => ?_, fun i j a b ha hb hab hpos => ?_, fun y hy hpos => ?_, h.plans,
    h.zero_over, h.strays, ?_⟩
  · rcases mem_set hy with hy | rfl
    · exact h.clients y hy
    · exact .inr ⟨hm, by simp [Meta.claimed], by simp [Meta.claimed]⟩
  · rcases of_getElem?_set ha with ⟨rfl, rfl⟩ | ⟨-, ha'⟩ <;>
      rcases of_getElem?_set hb with ⟨rfl, rfl⟩ | ⟨-, hb'⟩
    · rfl
    · exact absurd hab (hfresh b (List.mem_of_getElem? hb'))
    · exact absurd hab.symm (hfresh a (List.mem_of_getElem? ha'))
    · exact h.fds i j a b ha' hb' hab hpos
  · rcases mem_set hy with hy | rfl
    · exact List.mem_cons_of_mem _ (h.opened y hy hpos)
    · simp [Meta.claimed, Coord.claim]
  · have hp : (x.claimed n m).place = some (m, 0) := Meta.place_of_ne hm
    have hcrew : (s.claim c x n m).crew = s.crew.put c (m, 0) := crew_set hx hp rfl rfl
    have htrace : (s.claim c x n m).trace.map Event.abs =
        s.trace.map Event.abs ++ [.joined c m] := by
      simp [Coord.claim, Event.abs]
    rw [htrace, hcrew]
    refine h.runs.snoc (.joins (statusOf_running.mpr hlive) ?_ fun w k hw => ?_)
    · simp [Coord.crew, hx, Meta.place, hcur]
    · obtain ⟨y, hy, hp⟩ := Coord.crew_place.mp hw
      obtain ⟨hym, hmoves, -⟩ := Meta.place_eq_some hp
      rw [hall y (List.mem_of_getElem? hy) hym] at hmoves
      exact hmoves.symm

/-! A measurement starts, and the table changes in other ways. -/

theorem statusOf_moves {a b : Msms} {old new : State} (h : Moves a b m old new) :
    statusOf b = Function.update (statusOf a) m new.stage := by
  funext i
  unfold statusOf
  rw [h.states, Function.update_apply]
  split <;> rfl

theorem Coherent.start (h : Coherent table s) {msms : Msms}
    (hmv : Moves s.msms msms m .waiting .inProgress) :
    Coherent table { s with msms := msms, trace := s.trace ++ [.started m] } := by
  refine ⟨h.clients, h.fds, h.opened, fun i => (hmv.plans i).trans (h.plans i), h.zero_over,
    h.strays, ?_⟩
  rw [List.map_append]
  refine h.runs.snoc ?_
  have hcrew : Coord.crew { s with msms := msms, trace := s.trace ++ [.started m] } =
      { s.crew with status := Function.update s.crew.status m .running } := by
    simp only [Coord.crew, statusOf_moves hmv, State.stage]
  rw [hcrew]
  exact .opens (statusOf_waiting.mpr hmv.before)

/-- A change of the table that concerns neither plans nor states. -/
theorem Coherent.retable (h : Coherent table s) {msms : Msms}
    (hst : ∀ i, msms.stateOf i = s.msms.stateOf i)
    (hplan : ∀ i, (msms.get? i).map Measurement.plan = (s.msms.get? i).map Measurement.plan) :
    Coherent table { s with msms := msms } := by
  refine ⟨h.clients, h.fds, h.opened, fun i => (hplan i).trans (h.plans i),
    h.zero_over, h.strays, ?_⟩
  have hcrew : Coord.crew { s with msms := msms } = s.crew := by
    have : statusOf msms = statusOf s.msms := by
      funext i
      unfold statusOf
      rw [hst]
    simp only [Coord.crew, this]
  rw [hcrew]
  exact h.runs

/-! All clients of a measurement are released. -/

def Meta.release (m : UInt32) (x : Meta) : Meta := if x.currentMId = m then x.idle else x

theorem Meta.place_release (m : UInt32) (x : Meta) :
    (x.release m).place = x.place.filter fun p => p.1 ≠ m := by
  by_cases hm : x.currentMId = m
  · by_cases h0 : m = 0 <;> simp [release, place, hm, h0, idle, Option.filter]
  · have hx : x.release m = x := if_neg hm
    rw [hx]
    by_cases h0 : x.currentMId = 0 <;> simp [place, h0, hm, Option.filter]

theorem classesOf_release {metas : List Meta} {i : UInt32} (hi : i ≠ m) (h0 : i ≠ 0) :
    classesOf (metas.map (Meta.release m)) i = classesOf metas i := by
  unfold classesOf
  induction metas with
  | nil => rfl
  | cons x metas ih =>
    simp only [List.map_cons, List.filter_cons]
    by_cases hx : x.currentMId = m
    · have hx' : (x.release m).currentMId ≠ i := by simp [Meta.release, hx, Meta.idle, Ne.symm h0]
      have hxi : x.currentMId ≠ i := fun he => hi (he ▸ hx)
      simpa [hx', hxi] using ih
    · have hx' : x.release m = x := if_neg hx
      rw [hx']
      split <;> simp [ih]

/-- What is left after the end of `m`. -/
structure Ended (m : UInt32) (e : Event) (s s' : Coord) : Prop where
  metas : s'.metas = s.metas.map (Meta.release m)
  openFds : ∀ n ∈ s.openFds, (∀ x ∈ s.metas, x.currentMId = m → (n : Int) ≠ x.fd) → n ∈ s'.openFds
  moves : Moves s.msms s'.msms m .inProgress .complete
  strays : s'.strays = s.strays
  trace : s'.trace = s.trace ++ [e]

theorem Coherent.ended (h : Coherent table s) (hend : Ended m e s s') {ok : Bool}
    (he : e.abs = .closed m ok)
    (hok : ok = true → ∀ x ∈ s.metas, x.currentMId = m → x.state = .done) :
    Coherent table s' := by
  refine ⟨fun y hy => ?_, fun i j a b ha hb hab hpos => ?_, fun y hy hpos => ?_,
    fun i => (hend.moves.plans i).trans (h.plans i), h.zero_over, hend.strays.trans h.strays, ?_⟩
  · rw [hend.metas] at hy
    obtain ⟨x, hx, rfl⟩ := List.mem_map.mp hy
    unfold Meta.release
    split
    · exact .inl ⟨rfl, rfl, rfl⟩
    · exact h.clients x hx
  · rw [hend.metas, List.getElem?_map] at ha hb
    obtain ⟨a₀, ha₀, rfl⟩ := Option.map_eq_some_iff.mp ha
    obtain ⟨b₀, hb₀, rfl⟩ := Option.map_eq_some_iff.mp hb
    have hkeep : ∀ {y : Meta}, 0 ≤ (y.release m).fd → (y.release m).fd = y.fd := by
      intro y hy
      unfold Meta.release at *
      split <;> simp_all [Meta.idle]
    have hfa := hkeep hpos
    have hfb := hkeep (hab ▸ hpos)
    exact h.fds i j a₀ b₀ ha₀ hb₀ (by rw [← hfa, ← hfb, hab]) (hfa ▸ hpos)
  · rw [hend.metas] at hy
    obtain ⟨x, hx, rfl⟩ := List.mem_map.mp hy
    unfold Meta.release at hpos ⊢
    split at hpos
    · simp [Meta.idle] at hpos
    next hne =>
      rw [if_neg hne]
      refine hend.openFds _ (h.opened x hx hpos) fun z hz hzm heq => ?_
      obtain ⟨i, hi⟩ := List.mem_iff_getElem?.mp hx
      obtain ⟨j, hj⟩ := List.mem_iff_getElem?.mp hz
      rw [Int.toNat_of_nonneg hpos] at heq
      obtain rfl := h.fds i j x z hi hj heq hpos
      rw [hi] at hj
      exact hne (Option.some.inj hj ▸ hzm)
  · rw [hend.trace, List.map_append]
    refine h.runs.snoc ?_
    have hcrew : s'.crew =
        ⟨s.crew.leave m, Function.update s.crew.status m .over⟩ := by
      have hplace : s'.crew.place = s.crew.leave m := by
        funext i
        simp only [Coord.crew, Barrier.Crew.leave, hend.metas, List.getElem?_map]
        cases s.metas[i]? with
        | none => rfl
        | some x => simp [Meta.place_release]
      have hstatus : s'.crew.status = Function.update s.crew.status m .over :=
        statusOf_moves hend.moves
      cases hc : s'.crew
      simp only [hc] at hplace hstatus
      rw [hplace, hstatus]
    rw [hcrew, he]
    refine .closes (statusOf_running.mpr hend.moves.before) fun htrue w n hw => ?_
    obtain ⟨y, hy, hp⟩ := Coord.crew_place.mp hw
    obtain ⟨hym, hmoves, -⟩ := Meta.place_eq_some hp
    rw [hok htrue y (List.mem_of_getElem? hy) hym] at hmoves
    exact hmoves.symm

end
end Flashflow
