import Mathlib.Data.List.Perm.Subperm
import Flashflow.Loop.Standing

/-! `measurement_failed` at any point of the loop: what it cleans up, and what it leaves alone. -/
namespace Flashflow
open Sched Program Outcome

variable {table : Msms} {s : Coord} {m : UInt32} {p : Point}

/-- At each point the descriptors, the clients and the table are in step. -/
theorem Point.Holds.coherent (h : p.Holds table s) : Coherent table s ∧ s.known.Nodup := by
  have hrest : ∀ {m : UInt32}, Rest table m s → Coherent table s ∧ s.known.Nodup :=
    fun h => ⟨h.coherent, h.nodup⟩
  have hquiet : Quiet table s → Coherent table s ∧ s.known.Nodup := fun h => ⟨h.coherent, h.nodup⟩
  cases p with
  | head | giveUp | scan | pick => exact hquiet h
  | find => exact hrest h.1
  | claim => exact hrest (Hiring.rest h)
  | greet =>
    obtain ⟨e, s₀, hpass⟩ := h
    exact hrest hpass.passing.rest
  | advance | poll | events => exact hquiet h.1
  | check => exact hquiet h.1.quiet
  | tell =>
    obtain ⟨e, s₀, hpass, -⟩ := h
    exact hrest hpass.passing.rest
  | start =>
    obtain ⟨e, s₀, hpass, -⟩ := h
    exact hrest hpass.passing.rest
  | ready | done => exact hquiet (InTurn.quiet h)
  | failing => exact hrest h.1

/-- The other entries only note that `m` is done. -/
theorem schedMarkDone_others {a b : Msms} (h : schedMarkDone m a = .ok b) {i : UInt32}
    (hi : i ≠ m) :
    b.get? i = (a.get? i).map fun e =>
      if m ∈ e.depends then { e with finishedDepends := e.finishedDepends ++ [m] } else e := by
  obtain ⟨e, -, -, rfl⟩ := schedMarkDone_ok h
  rw [Msms.noteDone, Msms.get?_mapValues, Msms.get?_update, if_neg hi]
  rfl

/-- At any point of the loop, failing a measurement in progress returns and cleans up exactly it:
its clients are as before it was started, no other client has changed, it is taken out of the known
ones and complete, and the other measurements only note it among their finished dependencies. -/
theorem measurementFailed_cleans {r : Round} {s : Loop} (h : Reach r (p, s))
    (hm : s.co.msms.stateOf m = some .inProgress) :
    ∃ t, exec (measurementFailed m) s = (.ok (), t) ∧
      (∀ (c : ℕ) (x : Meta), s.co.metas[c]? = some x → x.currentMId = m →
        t.co.metas[c]? = some { x with state := .invalid, fd := -1, currentMId := 0 }) ∧
      (∀ (c : ℕ) (x : Meta), s.co.metas[c]? = some x → x.currentMId ≠ m →
        t.co.metas[c]? = some x) ∧
      t.co.metas.length = s.co.metas.length ∧
      t.co.known.Perm (s.co.known.erase m) ∧
      t.co.known.length = s.co.known.length - (if m ∈ s.co.known then 1 else 0) ∧
      m ∉ t.co.known ∧
      t.co.msms.stateOf m = some .complete ∧
      ∀ i, i ≠ m → t.co.msms.get? i = (s.co.msms.get? i).map fun e =>
        if m ∈ e.depends then { e with finishedDepends := e.finishedDepends ++ [m] } else e := by
  obtain ⟨-, table, -, hholds⟩ := h.holds
  obtain ⟨hcoh, hnd⟩ := hholds.coherent
  obtain ⟨_, t, hx, fds, msms, hdone, -, rfl⟩ := wp_terminates (wp_measurementFailed_co hcoh hm)
  have hperm := removeKnown_perm m s.co.known
  refine ⟨_, hx, fun c x hc hcur => ?_, fun c x hc hcur => ?_, by simp, hperm, ?_, fun hin => ?_,
    ?_, fun i hi => schedMarkDone_others hdone hi⟩
  · rw [List.getElem?_map, hc, Option.map_some, Meta.release, if_pos hcur]
    rfl
  · rw [List.getElem?_map, hc, Option.map_some, Meta.release, if_neg hcur]
  · rw [hperm.length_eq, List.length_erase]
    split <;> rfl
  · exact ((removeKnown_spec hnd m).2 m).mp hin |>.2 rfl
  · have hst := (schedMarkDone_moves hdone).states m
    rwa [if_pos rfl] at hst

/-- In the first turn the measurement is failed while its clients authenticate. -/
theorem measurementFailed_cleans_twoClients :
    ∃ t, exec (measurementFailed 1) (twoClientsStart.after 1) = (.ok (), t) ∧
      t.co.known = [] ∧ ∀ x ∈ t.co.metas, x.currentMId = 0 := by
  obtain ⟨t, hx, howned, -, hlen, -, hknown, -⟩ :=
    measurementFailed_cleans (m := 1) (twoClients_atHead (n := 1) (by decide)).reach
      (by decide +kernel)
  have hone : (twoClientsStart.after 1).co.known = [1] := by decide +kernel
  have hall : ∀ x ∈ (twoClientsStart.after 1).co.metas, x.currentMId = 1 := by decide +kernel
  refine ⟨t, hx, ?_, fun x hxt => ?_⟩
  · rw [hone] at hknown
    exact List.eq_nil_of_length_eq_zero hknown
  · obtain ⟨c, hc⟩ := List.mem_iff_getElem?.mp hxt
    obtain ⟨hlt, -⟩ := List.getElem?_eq_some_iff.mp hc
    have hget := List.getElem?_eq_getElem (hlen ▸ hlt)
    have hidle := howned c _ hget (hall _ (List.getElem_mem _))
    rw [hc] at hidle
    rw [Option.some.inj hidle]

end Flashflow
