import Flashflow.Library.Program

/-! Programs over a larger state. What such a program does on a part of the state is compared with
a program over this part only. -/
namespace Program

variable {σ τ ε α β : Type}

/-- On the part `π` of the state `x` does what `y` does, and `Q` holds if it returns. -/
def Refines (π : τ → σ) (x : Prog τ ε α) (y : Prog σ ε α) (Q : α → τ → Prop) (t : τ) : Prop :=
  (exec x t).1 = (exec y (π t)).1 ∧ π (exec x t).2 = (exec y (π t)).2 ∧ wp x Q (fun _ _ => True) t

/-- Run a program on a part of the state, and put what it has done back. -/
def onPart (π : τ → σ) (put : σ → τ → τ) (x : Prog σ ε α) : Prog τ ε α :=
  ExceptT.mk fun t => ((exec x (π t)).1, put (exec x (π t)).2 t)

section
variable {π : τ → σ} {x : Prog τ ε α} {y : Prog σ ε α} {P Q : α → τ → Prop} {t : τ}

theorem Refines.mono (h : Refines π x y P t) (hPQ : ∀ a u, P a u → Q a u) : Refines π x y Q t :=
  ⟨h.1, h.2.1, wp_conseq h.2.2 hPQ⟩

theorem refines_pure {a : α} (h : Q a t) : Refines π (pure a : Prog τ ε α) (pure a) Q t :=
  ⟨rfl, rfl, h⟩

theorem refines_onPart {put : σ → τ → τ} (hput : ∀ s t, π (put s t) = s)
    (h : wp y (fun a s => Q a (put s t)) (fun _ _ => True) (π t)) :
    Refines π (onPart π put y) y Q t := by
  refine ⟨rfl, hput _ _, ?_⟩
  have hexec : exec (onPart π put y) t = ((exec y (π t)).1, put (exec y (π t)).2 t) := rfl
  unfold wp at h ⊢
  rw [hexec]
  rcases hy : exec y (π t) with ⟨e | a, s⟩
  · trivial
  · rwa [hy] at h

theorem refines_bind {f : α → Prog τ ε β} {g : α → Prog σ ε β} {R : β → τ → Prop}
    (h : Refines π x y P t) (hf : ∀ a u, P a u → Refines π (f a) (g a) R u) :
    Refines π (x >>= f) (y >>= g) R t := by
  obtain ⟨hret, hstate, hP⟩ := h
  unfold Refines
  rw [wp_bind, exec_bind, exec_bind]
  unfold wp at hP ⊢
  rcases hx : exec x t with ⟨e | a, u⟩
  all_goals
    rcases hy : exec y (π t) with ⟨e' | a', s⟩
    all_goals simp only [hx, hy] at hret hstate hP
  · exact ⟨congrArg Except.error (Except.error.inj hret), hstate, trivial⟩
  · cases hret
  · cases hret
  · obtain rfl := Except.ok.inj hret
    exact hstate ▸ hf a u hP

/-- A step that only the larger state sees. -/
theorem refines_modify {x : Unit → Prog τ ε α} {f : τ → τ} (hf : π (f t) = π t)
    (h : Refines π (x ()) y Q (f t)) : Refines π (modifyState f >>= x) y Q t := by
  unfold Refines at h ⊢
  rw [hf] at h
  exact h

theorem refines_get {x : τ → Prog τ ε α} (h : Refines π (x t) y Q t) :
    Refines π (getState >>= x) y Q t := h

end

end Program
