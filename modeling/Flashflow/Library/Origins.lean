import Mathlib.Logic.Relation

/-! Systems that keep a log. A step writes at most one entry, for a reason that it finds itself or
that a step before has announced; then every entry of the log has an origin. -/
namespace Origins
open Relation

variable {σ ε : Type*} {R : σ → σ → Prop} {log : σ → List ε} {reason announced : σ → ε → Prop}
  {s₀ s t : σ} {past : List ε} {e : ε}

/-- On the way to `s` there was a reason for `e`, when the log was `past`. -/
def Origin (R : σ → σ → Prop) (log : σ → List ε) (reason : σ → ε → Prop) (s₀ s : σ)
    (past : List ε) (e : ε) : Prop :=
  ∃ t, ReflTransGen R s₀ t ∧ ReflTransGen R t s ∧ log t = past ∧ reason t e

/-- What a step does to the log, and what it announces. -/
inductive Writes (log : σ → List ε) (reason announced : σ → ε → Prop) (s t : σ) : Prop
  | silent (hlog : log t = log s) (hnew : ∀ e, announced t e → reason s e ∨ announced s e)
  | entry {e : ε} (hlog : log t = log s ++ [e]) (he : reason s e ∨ announced s e)
      (hnone : ∀ e, ¬ announced t e)

/-- Every entry has an origin, and so has every announcement. -/
structure Explained (R : σ → σ → Prop) (log : σ → List ε) (reason announced : σ → ε → Prop)
    (s₀ s : σ) : Prop where
  entries : ∀ past e rest, log s = past ++ e :: rest → Origin R log reason s₀ s past e
  pending : ∀ e, announced s e → Origin R log reason s₀ s (log s) e

theorem Origin.step (h : Origin R log reason s₀ s past e) (hs : R s t) :
    Origin R log reason s₀ t past e := by
  obtain ⟨u, hu, hsu, hlog, hreason⟩ := h
  exact ⟨u, hu, hsu.tail hs, hlog, hreason⟩

theorem Explained.origin (h : Explained R log reason announced s₀ s)
    (hreach : ReflTransGen R s₀ s) (he : reason s e ∨ announced s e) :
    Origin R log reason s₀ s (log s) e :=
  he.elim (fun hreason => ⟨s, hreach, .refl, rfl, hreason⟩) (h.pending e)

theorem Explained.step (h : Explained R log reason announced s₀ s)
    (hreach : ReflTransGen R s₀ s) (hs : R s t) (hw : Writes log reason announced s t) :
    Explained R log reason announced s₀ t := by
  cases hw with
  | silent hlog hnew =>
    refine ⟨fun past e rest hsplit => ?_, fun e he => ?_⟩
    · exact (h.entries past e rest (hlog.symm.trans hsplit)).step hs
    · exact hlog ▸ (h.origin hreach (hnew e he)).step hs
  | @entry e hlog he hnone =>
    refine ⟨fun past e' rest hsplit => ?_, fun e' he' => absurd he' (hnone e')⟩
    rw [hlog] at hsplit
    -- the entry is the new one, or it was there before
    rcases List.eq_nil_or_concat rest with rfl | ⟨rest, x, rfl⟩
    · obtain ⟨rfl, hlast⟩ := List.append_inj' hsplit rfl
      obtain rfl : e = e' := List.singleton_inj.mp hlast
      exact (h.origin hreach he).step hs
    · rw [List.concat_eq_append, ← List.cons_append, ← List.append_assoc] at hsplit
      exact (h.entries past e' rest (List.append_inj' hsplit rfl).1).step hs

/-- A system that starts with an empty log. -/
theorem explained (h : ReflTransGen R s₀ s) (hnil : log s₀ = []) (hnone : ∀ e, ¬ announced s₀ e)
    (hstep : ∀ {s t}, ReflTransGen R s₀ s → R s t → Writes log reason announced s t) :
    Explained R log reason announced s₀ s := by
  induction h with
  | refl =>
    exact ⟨fun past e rest hsplit => by simp [hnil] at hsplit, fun e he => absurd he (hnone e)⟩
  | tail hs hst ih => exact ih.step hs hst (hstep hs hst)

end Origins
