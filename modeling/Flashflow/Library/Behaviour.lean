import Mathlib.Logic.Basic

/-! What can be observed of a system that answers calls and may fail for good, and simulation: a
system that can follow another one shows whatever the other shows. -/
namespace Behaviour

variable {σ ι ρ ε : Type*}

/-- `Shows out s tr`: in `s` the calls of `tr`, oldest first, may get the answers noted with them,
where `out` are the possible outcomes of a call. Nothing is observed after a failure. -/
inductive Shows (out : σ → ι → Except ε (ρ × σ) → Prop) : σ → List (ι × Except ε ρ) → Prop
  | nil (s : σ) : Shows out s []
  | answer {s s' : σ} {c : ι} {r : ρ} {tr : List (ι × Except ε ρ)} (h : out s c (.ok (r, s')))
      (htr : Shows out s' tr) : Shows out s ((c, .ok r) :: tr)
  | failure {s : σ} {c : ι} {e : ε} (h : out s c (.error e)) : Shows out s [(c, .error e)]

/-- In related states every outcome of a call in `P` on the left is possible on the right. -/
structure Simulates (out : σ → ι → Except ε (ρ × σ) → Prop) (P : ι → Prop) (R : σ → σ → Prop) :
    Prop where
  answer : ∀ {s s' t c r}, R s t → P c → out s c (.ok (r, s')) →
    ∃ t', out t c (.ok (r, t')) ∧ R s' t'
  failure : ∀ {s t c e}, R s t → P c → out s c (.error e) → out t c (.error e)

theorem Simulates.shows {out : σ → ι → Except ε (ρ × σ) → Prop} {P : ι → Prop}
    {R : σ → σ → Prop} (h : Simulates out P R) {s t : σ} {tr : List (ι × Except ε ρ)}
    (hR : R s t) (hP : ∀ x ∈ tr, P x.1) (hs : Shows out s tr) : Shows out t tr := by
  induction hs generalizing t with
  | nil => exact .nil t
  | answer hout _ ih =>
    obtain ⟨hc, hP⟩ := List.forall_mem_cons.mp hP
    obtain ⟨t', hout', hR'⟩ := h.answer hR hc hout
    exact .answer hout' (ih hR' hP)
  | failure hout => exact .failure (h.failure hR (hP _ List.mem_cons_self) hout)

end Behaviour
