import Mathlib.Data.List.Basic
import Mathlib.Order.Defs.Unbundled

/-! Programs that change a state and may abort, and their weakest preconditions. The state an
aborting run has reached is kept, so a postcondition can speak about it. -/
namespace Program

/-- A computation over a state `σ` that returns `α` or aborts with `ε`. -/
abbrev Prog (σ ε α : Type) := ExceptT ε (StateM σ) α

variable {σ ε α β τ : Type}

def getState : Prog σ ε σ := ExceptT.lift (fun s => (s, s))

def modifyState (f : σ → σ) : Prog σ ε Unit := ExceptT.lift (fun s => ((), f s))

def abort (e : ε) : Prog σ ε α := ExceptT.mk (pure (.error e))

def fromExcept : Except ε α → Prog σ ε α
  | .ok a => pure a
  | .error e => abort e

/-- The outcome of a run from `s`, with the state it ends in. -/
def exec (x : Prog σ ε α) (s : σ) : Except ε α × σ := x.run.run s

/-- Every run of `x` from `s` that returns ends in `Q`, and one that aborts ends in `E`. -/
def wp (x : Prog σ ε α) (Q : α → σ → Prop) (E : ε → σ → Prop) (s : σ) : Prop :=
  match exec x s with
  | (.ok a, s') => Q a s'
  | (.error e, s') => E e s'

section Rules
variable {Q Q' : α → σ → Prop} {E E' : ε → σ → Prop} {s : σ}

@[simp] theorem wp_pure (a : α) : wp (pure a : Prog σ ε α) Q E s ↔ Q a s := Iff.rfl

@[simp] theorem wp_abort (e : ε) : wp (abort e : Prog σ ε α) Q E s ↔ E e s := Iff.rfl

@[simp] theorem wp_getState {Q : σ → σ → Prop} : wp (getState : Prog σ ε σ) Q E s ↔ Q s s := Iff.rfl

@[simp] theorem wp_modifyState (f : σ → σ) {Q : Unit → σ → Prop} :
    wp (modifyState f : Prog σ ε Unit) Q E s ↔ Q () (f s) := Iff.rfl

theorem exec_bind (x : Prog σ ε α) (f : α → Prog σ ε β) (s : σ) :
    exec (x >>= f) s = match exec x s with
      | (.ok a, s') => exec (f a) s'
      | (.error e, s') => (.error e, s') := by
  change (ExceptT.bindCont f (x.run.run s).1).run (x.run.run s).2 = _
  unfold exec
  rcases x.run.run s with ⟨_ | _, _⟩ <;> rfl

@[simp] theorem wp_bind (x : Prog σ ε α) (f : α → Prog σ ε β) {Q : β → σ → Prop} :
    wp (x >>= f) Q E s ↔ wp x (fun a => wp (f a) Q E) E s := by
  unfold wp
  rw [exec_bind]
  rcases exec x s with ⟨_ | _, _⟩ <;> rfl

@[simp] theorem wp_map (f : α → β) (x : Prog σ ε α) {Q : β → σ → Prop} :
    wp (f <$> x) Q E s ↔ wp x (fun a => Q (f a)) E s := by
  rw [← bind_pure_comp, wp_bind]
  exact Iff.rfl

@[simp] theorem fromExcept_ok (a : α) : (fromExcept (.ok a) : Prog σ ε α) = pure a := rfl

@[simp] theorem fromExcept_error (e : ε) : (fromExcept (.error e) : Prog σ ε α) = abort e := rfl

theorem wp_ite {p : Prop} [Decidable p] {x y : Prog σ ε α} :
    wp (if p then x else y) Q E s ↔ (p → wp x Q E s) ∧ (¬ p → wp y Q E s) := by
  split <;> simp_all

theorem wp_mono {x : Prog σ ε α} (h : wp x Q E s) (hQ : ∀ a s', Q a s' → Q' a s')
    (hE : ∀ e s', E e s' → E' e s') : wp x Q' E' s := by
  unfold wp at *
  split at h
  · exact hQ _ _ h
  · exact hE _ _ h

/-- The rule of consequence for returning runs. -/
theorem wp_conseq {x : Prog σ ε α} (h : wp x Q E s) (hQ : ∀ a s', Q a s' → Q' a s') :
    wp x Q' E s := wp_mono h hQ fun _ _ he => he

theorem wp_and {x : Prog σ ε α} (h : wp x Q E s) (h' : wp x Q' E' s) :
    wp x (fun a t => Q a t ∧ Q' a t) (fun e t => E e t ∧ E' e t) s := by
  rcases hx : exec x s with ⟨e | a, t⟩
  all_goals
    simp only [wp, hx] at *
    exact ⟨h, h'⟩

theorem wp_returns {x : Prog σ ε α} (h : wp x Q E s) {a : α} {s' : σ}
    (hx : exec x s = (.ok a, s')) : Q a s' := by simpa [wp, hx] using h

theorem wp_aborts {x : Prog σ ε α} (h : wp x Q E s) {e : ε} {s' : σ}
    (hx : exec x s = (.error e, s')) : E e s' := by simpa [wp, hx] using h

theorem wp_terminates {x : Prog σ ε α} (h : wp x Q (fun _ _ => False) s) :
    ∃ a s', exec x s = (.ok a, s') ∧ Q a s' := by
  rcases hx : exec x s with ⟨e | a, s'⟩
  · exact (wp_aborts h hx).elim
  · exact ⟨a, s', rfl, wp_returns h hx⟩

theorem exec_of_fst {x : Prog σ ε α} {r : Except ε α} (h : (exec x s).1 = r) :
    exec x s = (r, (exec x s).2) := Prod.ext h rfl

theorem exec_of_wp {x : Prog σ ε α} {a : α} {s' : σ}
    (h : wp x (fun b t => b = a ∧ t = s') (fun _ _ => False) s) : exec x s = (.ok a, s') := by
  obtain ⟨b, t, hx, rfl, rfl⟩ := wp_terminates h
  exact hx

/-- What holds after every run that returns. -/
theorem wp_of_returns {x : Prog σ ε α} (h : ∀ a s', exec x s = (.ok a, s') → Q a s') :
    wp x Q (fun _ _ => True) s := by
  unfold wp
  split
  next heq => exact h _ _ heq
  · trivial

/-- What holds of the last state however the run ends. -/
theorem wp_last {x : Prog σ ε α} {R : σ → Prop} (h : wp x (fun _ => R) (fun _ => R) s) :
    R (exec x s).2 := by
  unfold wp at h
  split at h
  next heq =>
    rw [heq]
    exact h
  next heq =>
    rw [heq]
    exact h

end Rules

/-! Loops. A turn either goes on with new values of the loop's variables or leaves. -/

inductive Turn (τ ρ : Type) where
  | next (t : τ)
  | leave (r : ρ)
  deriving DecidableEq, Repr

variable {ρ : Type}

/-- `for (i = 0; i < n; i++)`, from the turn `i` on. -/
def forFrom (f : ℕ → τ → Prog σ ε (Turn τ ρ)) : (n i : ℕ) → τ → Prog σ ε (Turn τ ρ)
  | 0, _, t => pure (.next t)
  | n + 1, i, t => do
    match ← f i t with
    | .next t => forFrom f n (i + 1) t
    | .leave r => pure (.leave r)

/-- `for (i = 0; i < n; i++)` over the loop variables `t`. -/
def forRange (n : ℕ) (t : τ) (f : ℕ → τ → Prog σ ε (Turn τ ρ)) : Prog σ ε (Turn τ ρ) :=
  forFrom f n 0 t

/-- What a turn has to establish: the invariant at the next index, or `J` when it leaves. -/
def Turn.Post (I : τ → σ → Prop) (J : ρ → σ → Prop) : Turn τ ρ → σ → Prop
  | .next t, s => I t s
  | .leave r, s => J r s

@[simp] theorem Turn.post_next (I : τ → σ → Prop) (J : ρ → σ → Prop) (t : τ) (s : σ) :
    (Turn.next t).Post I J s ↔ I t s := Iff.rfl

@[simp] theorem Turn.post_leave (I : τ → σ → Prop) (J : ρ → σ → Prop) (r : ρ) (s : σ) :
    (Turn.leave r).Post I J s ↔ J r s := Iff.rfl

theorem wp_forFrom {f : ℕ → τ → Prog σ ε (Turn τ ρ)} {E : ε → σ → Prop} (I : ℕ → τ → σ → Prop)
    (J : ρ → σ → Prop) {n i : ℕ}
    (hstep : ∀ j, i ≤ j → j < i + n → ∀ t s, I j t s → wp (f j t) (Turn.Post (I (j + 1)) J) E s)
    {t : τ} {s : σ} (h : I i t s) : wp (forFrom f n i t) (Turn.Post (I (i + n)) J) E s := by
  induction n generalizing i t s with
  | zero => simpa [forFrom] using h
  | succ n ih =>
    simp only [forFrom, wp_bind]
    refine wp_conseq (hstep i (Nat.le_refl i) (by omega) t s h) ?_
    rintro (t' | r) s' hr
    · have hrec := ih (fun j hj hlt => hstep j (by omega) (by omega)) hr
      rwa [Nat.add_right_comm] at hrec
    · exact hr

/-- The loop rule: an invariant that every turn moves to the next index. -/
theorem wp_forRange {f : ℕ → τ → Prog σ ε (Turn τ ρ)} {E : ε → σ → Prop} (I : ℕ → τ → σ → Prop)
    (J : ρ → σ → Prop) {n : ℕ}
    (hstep : ∀ i < n, ∀ t s, I i t s → wp (f i t) (Turn.Post (I (i + 1)) J) E s)
    {t : τ} {s : σ} (h : I 0 t s) : wp (forRange n t f) (Turn.Post (I n) J) E s := by
  have hrec := wp_forFrom I J (n := n) (fun j _ hlt => hstep j (by omega)) h
  rwa [Nat.zero_add] at hrec

/-- A `for` loop that carries nothing and is never left early. -/
def forEach (f : ℕ → Prog σ ε Unit) : ℕ → Prog σ ε Unit
  | 0 => pure ()
  | n + 1 => do
    forEach f n
    f n

theorem wp_forEach {f : ℕ → Prog σ ε Unit} {E : ε → σ → Prop} (I : ℕ → σ → Prop) {n : ℕ}
    (hstep : ∀ i < n, ∀ s, I i s → wp (f i) (fun _ s' => I (i + 1) s') E s) {s : σ} (h : I 0 s) :
    wp (forEach f n) (fun _ s' => I n s') E s := by
  induction n with
  | zero => simpa [forEach] using h
  | succ n ih =>
    simp only [forEach, wp_bind]
    refine wp_conseq (ih fun i hi => hstep i (by omega)) ?_
    exact fun _ s' hs => hstep n (by omega) s' hs

/-- A loop without a bound of its own, run for at most `n` turns; `stuck` if that is too few. -/
def whileFuel (stuck : ε) (f : τ → Prog σ ε (Turn τ ρ)) : ℕ → τ → Prog σ ε ρ
  | 0, _ => abort stuck
  | n + 1, t => do
    match ← f t with
    | .next t => whileFuel stuck f n t
    | .leave r => pure r

/-- The loop rule for total correctness: each turn that goes on lowers the variant `V`, so fuel
above it is enough. -/
theorem wp_whileFuel {stuck : ε} {f : τ → Prog σ ε (Turn τ ρ)} {Q : ρ → σ → Prop}
    {E : ε → σ → Prop} (I : τ → σ → Prop) (V : τ → σ → ℕ)
    (hstep : ∀ t s, I t s →
      wp (f t) (Turn.Post (fun t' s' => I t' s' ∧ V t' s' < V t s) Q) E s)
    {n : ℕ} {t : τ} {s : σ} (hV : V t s < n) (h : I t s) : wp (whileFuel stuck f n t) Q E s := by
  induction n generalizing t s with
  | zero => omega
  | succ n ih =>
    simp only [whileFuel, wp_bind]
    refine wp_conseq (hstep t s h) ?_
    rintro (t' | r) s' hr
    · obtain ⟨hI, hlt⟩ := hr
      exact ih (by omega) hI
    · exact hr

/-- The loop rule for partial correctness, where running out of fuel is a way to abort. -/
theorem wp_whileFuel_invariant {stuck : ε} {f : τ → Prog σ ε (Turn τ ρ)} {Q : ρ → σ → Prop}
    {E : ε → σ → Prop} (I : τ → σ → Prop) (hstep : ∀ t s, I t s → wp (f t) (Turn.Post I Q) E s)
    (hstuck : ∀ s, E stuck s) {n : ℕ} {t : τ} {s : σ} (h : I t s) :
    wp (whileFuel stuck f n t) Q E s := by
  induction n generalizing t s with
  | zero => exact hstuck s
  | succ n ih =>
    simp only [whileFuel, wp_bind]
    refine wp_conseq (hstep t s h) ?_
    rintro (t' | r) s' hr
    · exact ih hr
    · exact hr

/-! Frames: what a program does to the state however it ends. -/

/-- The last state of `x` is related to the first one. -/
def Keeps (R : σ → σ → Prop) (x : Prog σ ε α) : Prop := ∀ s, R s (exec x s).2

section Frames
variable {R : σ → σ → Prop}

theorem Keeps.of_exec {x : Prog σ ε α} (h : Keeps R x) {s s' : σ} {r : Except ε α}
    (hx : exec x s = (r, s')) : R s s' := by
  have hs := h s
  rwa [hx] at hs

theorem keeps_of_wp {x : Prog σ ε α} (h : ∀ s, wp x (fun _ => R s) (fun _ => R s) s) :
    Keeps R x := fun s => wp_last (h s)

theorem wp_of_keeps {x : Prog σ ε α} (h : Keeps R x) (s : σ) :
    wp x (fun _ => R s) (fun _ => R s) s := by
  have hs := h s
  unfold wp
  split
  next heq => rwa [heq] at hs
  next heq => rwa [heq] at hs

theorem keeps_ite {p : Prop} [Decidable p] {x y : Prog σ ε α} (hx : Keeps R x) (hy : Keeps R y) :
    Keeps R (if p then x else y) := by
  split
  · exact hx
  · exact hy

variable [IsPreorder σ R]

theorem keeps_pure (a : α) : Keeps R (pure a : Prog σ ε α) := fun s => refl_of R s

theorem keeps_abort (e : ε) : Keeps R (abort e : Prog σ ε α) := fun s => refl_of R s

theorem keeps_fromExcept (x : Except ε α) : Keeps R (fromExcept x : Prog σ ε α) := by
  cases x with
  | ok a => exact keeps_pure a
  | error e => exact keeps_abort e

theorem keeps_bind {x : Prog σ ε α} {f : α → Prog σ ε β} (hx : Keeps R x)
    (hf : ∀ a, Keeps R (f a)) : Keeps R (x >>= f) := by
  intro s
  have hs := hx s
  rw [exec_bind]
  split
  next heq =>
    rw [heq] at hs
    exact trans_of R hs (hf _ _)
  next heq => rwa [heq] at hs

theorem keeps_forFrom {f : ℕ → τ → Prog σ ε (Turn τ ρ)} (hf : ∀ i t, Keeps R (f i t))
    (n i : ℕ) (t : τ) : Keeps R (forFrom f n i t) := by
  induction n generalizing i t with
  | zero => exact keeps_pure _
  | succ n ih =>
    refine keeps_bind (hf i t) fun r => ?_
    cases r with
    | next t' => exact ih _ _
    | leave r => exact keeps_pure _

theorem keeps_forRange {f : ℕ → τ → Prog σ ε (Turn τ ρ)} (hf : ∀ i t, Keeps R (f i t))
    (n : ℕ) (t : τ) : Keeps R (forRange n t f) := keeps_forFrom hf n 0 t

theorem keeps_forEach {f : ℕ → Prog σ ε Unit} (hf : ∀ i, Keeps R (f i)) (n : ℕ) :
    Keeps R (forEach f n) := by
  induction n with
  | zero => exact keeps_pure _
  | succ n ih => exact keeps_bind ih fun _ => hf n

theorem keeps_whileFuel {stuck : ε} {f : τ → Prog σ ε (Turn τ ρ)} (hf : ∀ t, Keeps R (f t))
    (n : ℕ) (t : τ) : Keeps R (whileFuel stuck f n t) := by
  induction n generalizing t with
  | zero => exact keeps_abort _
  | succ n ih =>
    refine keeps_bind (hf t) fun r => ?_
    cases r with
    | next t' => exact ih _
    | leave r => exact keeps_pure _

end Frames

end Program
