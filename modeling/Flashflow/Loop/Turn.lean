import Flashflow.Loop.Replies
import Flashflow.Loop.Stages

/-! A whole turn of the main loop: from order to order. -/
namespace Flashflow
open Sched Program Arrays Outcome

variable {table : Msms} {s : Loop} {m : UInt32} {c : ℕ} {x : Meta} {p : Phase}

theorem length_removeKnown {ids : List UInt32} (hm : m ∈ ids) :
    (removeKnown m ids).length + 1 = ids.length := by
  have hpos := List.length_pos_of_mem hm
  rw [(removeKnown_perm m ids).length_eq, List.length_erase_of_mem hm]
  omega

theorem wp_giveUp (h : Quiet table s.co) :
    wp giveUp (fun _ t => Quiet table t.co) (Aborted table) s := by
  rw [giveUp, wp_bind, wp_co, wp_ite]
  refine ⟨fun _ => ?_, fun _ => h⟩
  rw [wp_bind]
  refine wp_conseq (Q := fun _ t => Quiet table t.co) (wp_whileFuel
    (fun _ t => Quiet table t.co) (fun _ t => t.co.known.length) ?_ (by omega) h) ?_
  · rintro ⟨⟩ t ht
    rw [wp_bind, wp_co]
    cases hlast : t.co.known.getLast? with
    | none => exact ht
    | some m =>
      have hm : m ∈ t.co.known := List.mem_of_getLast? hlast
      simp only [wp_bind]
      apply wp_conseq (wp_measurementFailed (ht.rest hm))
      rintro _ u ⟨hu, hknown, -⟩
      have hlen := length_removeKnown hm
      exact ⟨hu, by rw [hknown]; omega⟩
  · rintro _ t ht
    exact ht.loops 0

theorem wp_failsafeScan (h : Quiet table s.co) :
    wp failsafeScan (fun _ t => Quiet table t.co) (Aborted table) s := by
  rw [failsafeScan, wp_bind, wp_co]
  refine wp_whileFuel (fun _ t => Quiet table t.co) (fun i t => t.co.known.length - i)
    ?_ (by omega) h
  rintro i t ht
  rw [wp_bind, wp_co]
  cases hi : t.co.known[i]? with
  | none => exact ht
  | some m =>
    have hm : m ∈ t.co.known := List.mem_of_getElem? hi
    obtain ⟨hlt, -⟩ := List.getElem?_eq_some_iff.mp hi
    simp only [wp_bind]
    apply wp_assertFillParams ht hm
    intro e he hired
    rw [wp_bind]
    apply wp_answer_script
    intro k os hos htick
    cases htime : (t.os.script k).time with
    | none =>
      exact ⟨⟨k, htick, hos ▸ htime⟩, by rintro ⟨⟩, ht.coherent.strays, _, ht.coherent.runs⟩
    | some now =>
      simp only [wp_ite]
      refine ⟨fun _ => ?_, fun _ => ?_⟩
      · rw [wp_bind]
        apply wp_conseq (wp_measurementFailed (s := { t with os := os }) (ht.rest hm))
        rintro _ u ⟨hu, hknown, -⟩
        have hlen := length_removeKnown hm
        simp only [wp_bind, wp_countFailed, wp_pure, Turn.post_next]
        exact ⟨hu, by rw [hknown]; simp only; omega⟩
      · exact ⟨ht, by simp only; omega⟩

/-- A turn of the main loop comes back to its head with everything in order, and never returns
-1. -/
theorem wp_mainLoopTurn (h : Quiet table s.co) :
    wp mainLoopTurn (fun ok t => ok = true ∧ Quiet table t.co) (Aborted table) s := by
  rw [mainLoopTurn, wp_bind]
  apply wp_conseq (wp_giveUp h)
  intro _ _ h
  rw [wp_bind]
  apply wp_conseq (wp_failsafeScan h)
  intro _ _ h
  rw [wp_bind]
  apply wp_conseq (wp_startNew h)
  intro _ _ h
  rw [wp_bind]
  apply wp_conseq (wp_advance h)
  rintro (_ | _) t ht
  · exact ⟨rfl, ht⟩
  · exact wp_pollStage ht

end Flashflow
