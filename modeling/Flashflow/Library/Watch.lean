import Flashflow.Library.Program

/-! Programs that are watched while they run: they note what they do, and what has been noted is
kept when they abort. -/
namespace Watch
open Program

/-- A state with what has been seen so far, oldest first. -/
structure Watched (σ υ : Type) where
  state : σ
  seen : List υ

variable {σ υ ε ε' α : Type}

def observe (u : υ) : Prog (Watched σ υ) ε Unit :=
  modifyState fun w => { w with seen := w.seen ++ [u] }

/-- Run a program on the state alone. It is a value how it ends. -/
def attempt (x : Prog σ ε' α) : Prog (Watched σ υ) ε (Except ε' α) := do
  let w ← getState
  modifyState fun w => { w with state := (exec x w.state).2 }
  pure (exec x w.state).1

/-- What is seen on the way from `w` to `w'` are things with `p`. -/
def Adds (p : υ → Prop) (w w' : Watched σ υ) : Prop :=
  ∃ us, w'.seen = w.seen ++ us ∧ ∀ u ∈ us, p u

variable {p : υ → Prop}

theorem adds_of_eq {w w' : Watched σ υ} (h : w'.seen = w.seen) : Adds p w w' :=
  ⟨[], h.trans (List.append_nil _).symm, fun _ hu => absurd hu List.not_mem_nil⟩

theorem adds_one {w w' : Watched σ υ} {u : υ} (h : w'.seen = w.seen ++ [u]) (hu : p u) :
    Adds p w w' := ⟨[u], h, by simpa using hu⟩

instance : IsPreorder (Watched σ υ) (Adds p) where
  refl _ := adds_of_eq rfl
  trans _ _ _ := by
    rintro ⟨us, hus, hp⟩ ⟨us', hus', hp'⟩
    refine ⟨us ++ us', by rw [hus', hus, List.append_assoc], fun u hu => ?_⟩
    rcases List.mem_append.mp hu with hu | hu
    · exact hp u hu
    · exact hp' u hu

theorem keeps_observe {u : υ} (h : p u) : Keeps (Adds p) (observe u : Prog (Watched σ υ) ε Unit) :=
  fun _ => adds_one rfl h

theorem keeps_getState : Keeps (Adds p) (getState : Prog (Watched σ υ) ε (Watched σ υ)) :=
  fun w => refl_of (Adds p) w

theorem keeps_modifyState {f : Watched σ υ → Watched σ υ} (h : ∀ w, (f w).seen = w.seen) :
    Keeps (Adds p) (modifyState f : Prog (Watched σ υ) ε Unit) :=
  fun w => adds_of_eq (h w)

theorem keeps_attempt (x : Prog σ ε' α) :
    Keeps (Adds p) (attempt x : Prog (Watched σ υ) ε (Except ε' α)) := by
  apply keeps_bind keeps_getState
  intro w
  refine keeps_bind (keeps_modifyState ?_) fun _ => keeps_pure _
  intro _
  rfl

/-- What has been seen stays. -/
theorem seen_subset {x : Prog (Watched σ υ) ε α} (h : Keeps (Adds p) x) (w : Watched σ υ) :
    w.seen ⊆ (exec x w).2.seen := by
  obtain ⟨us, hus, -⟩ := h w
  rw [hus]
  exact List.subset_append_left _ _

/-- What is observed first has been seen in the end. -/
theorem mem_seen_observe {u : υ} {f : Unit → Prog (Watched σ υ) ε α}
    (hf : ∀ a, Keeps (Adds p) (f a)) (w : Watched σ υ) :
    u ∈ (exec (observe u >>= f) w).2.seen := by
  have hobserve : exec (observe u : Prog (Watched σ υ) ε Unit) w =
      (.ok (), { w with seen := w.seen ++ [u] }) := rfl
  rw [exec_bind, hobserve]
  exact seen_subset (hf ()) _ (List.mem_append_right _ List.mem_cons_self)

/-- Everything that is seen from the start on has `p`. -/
theorem seen_of_keeps {x : Prog (Watched σ υ) ε α} (h : Keeps (Adds p) x) (s : σ) :
    ∀ u ∈ (exec x ⟨s, []⟩).2.seen, p u := by
  obtain ⟨us, hus, hp⟩ := h ⟨s, []⟩
  rw [hus, List.nil_append]
  exact hp

end Watch
