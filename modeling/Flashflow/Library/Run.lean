import Mathlib.Logic.Relation

/-! Labelled runs of a step relation, with the label history as a list. -/
namespace LabelledRun

variable {σ ε : Type*} {step : σ → ε → σ → Prop} {s₀ s s' : σ} {evs : List ε} {e : ε}

/-- `Run step s₀ evs s`: the steps labelled `evs`, oldest first, lead from `s₀` to `s`. -/
inductive Run (step : σ → ε → σ → Prop) (s₀ : σ) : List ε → σ → Prop
  | nil : Run step s₀ [] s₀
  | snoc {evs : List ε} {s s' : σ} {e : ε} :
      Run step s₀ evs s → step s e s' → Run step s₀ (evs ++ [e]) s'

/-- `s` is reached from `s₀` by some labels. -/
def Reaches (step : σ → ε → σ → Prop) (s₀ s : σ) : Prop := ∃ evs, Run step s₀ evs s

theorem Reaches.refl (s₀ : σ) : Reaches step s₀ s₀ := ⟨[], .nil⟩

theorem Reaches.tail (h : Reaches step s₀ s) (hs : step s e s') : Reaches step s₀ s' := by
  obtain ⟨evs, h⟩ := h
  exact ⟨evs ++ [e], h.snoc hs⟩

theorem Reaches.trans {s₁ : σ} (h : Reaches step s₀ s₁) (h' : Reaches step s₁ s) :
    Reaches step s₀ s := by
  obtain ⟨evs, h'⟩ := h'
  induction h' with
  | nil => exact h
  | snoc _ hs ih => exact ih.tail hs

/-- A property of history and state that holds at the start and survives every step
holds along every run. -/
theorem Run.invariant {I : List ε → σ → Prop} (h : Run step s₀ evs s) (h₀ : I [] s₀)
    (hstep : ∀ {evs s e s'}, I evs s → step s e s' → I (evs ++ [e]) s') : I evs s := by
  induction h with
  | nil => exact h₀
  | snoc _ hs ih => exact hstep ih hs

theorem Reaches.invariant {I : σ → Prop} (h : Reaches step s₀ s) (h₀ : I s₀)
    (hstep : ∀ {s e s'}, I s → step s e s' → I s') : I s := by
  obtain ⟨evs, h⟩ := h
  exact h.invariant (I := fun _ s => I s) h₀ hstep

/-- The state in which a label of the history was issued. -/
theorem Run.at_event {pre post : List ε} (h : Run step s₀ (pre ++ e :: post) s) :
    ∃ t t', Run step s₀ pre t ∧ step t e t' := by
  generalize hev : pre ++ e :: post = evs at h
  induction h generalizing post with
  | nil => simp at hev
  | @snoc evs t t' e' ht hs ih =>
    rcases List.eq_nil_or_concat post with rfl | ⟨post, x, rfl⟩
    · obtain ⟨rfl, he⟩ := List.append_inj' hev rfl
      obtain rfl : e = e' := by simpa using he
      exact ⟨t, t', ht, hs⟩
    · have hev' : (pre ++ e :: post) ++ [x] = evs ++ [e'] := by simpa using hev
      obtain ⟨hpre, -⟩ := List.append_inj' hev' rfl
      exact ih hpre

/-- Where a state and a label leave only one step, the history says which state is reached. -/
theorem Run.unique (hstep : ∀ {s e t t'}, step s e t → step s e t' → t = t')
    (h : Run step s₀ evs s) (h' : Run step s₀ evs s') : s = s' := by
  induction h generalizing s' with
  | nil =>
    generalize hev : ([] : List ε) = evs at h'
    cases h' with
    | nil => rfl
    | snoc => simp at hev
  | @snoc evs t u e ht hs ih =>
    generalize hev : evs ++ [e] = evs' at h'
    cases h' with
    | nil => simp at hev
    | snoc ht' hs' =>
      obtain ⟨rfl, he⟩ := List.append_inj' hev rfl
      obtain rfl : e = _ := List.singleton_inj.mp he
      obtain rfl := ih ht'
      exact hstep hs hs'

end LabelledRun
