import Mathlib.Data.Nat.Basic

/-! A system that a deadline keeps going. Each step either does something, which counts, or it only
lets time pass; but deadlines are set in time, and a step that only waits must come before them. -/
namespace Deadline

variable {σ : Type*} {size tick : σ → ℕ} {since : ℕ → σ → Prop} {patience : ℕ}

/-- A step that only waits. All deadlines that were set by the tick `k` still are, and the step is
within the patience after it. -/
structure Waits (size tick : σ → ℕ) (since : ℕ → σ → Prop) (patience : ℕ) (s t : σ) : Prop where
  same : size t = size s
  later : tick s < tick t
  kept : ∀ k, since k s → since k t
  early : ∀ k, since k s → tick s < k + patience

/-- The steps before the state are paid for: `q` of them have only waited, since all deadlines were
set. -/
def Paid (size tick : σ → ℕ) (since : ℕ → σ → Prop) (patience : ℕ) (s₀ : σ) (n : ℕ)
    (s : σ) : Prop :=
  ∃ q k, q ≤ patience ∧ since k s ∧ k + q ≤ tick s ∧
    n + (patience + 1) * size s₀ ≤ (patience + 1) * size s + q

theorem Paid.grows {s₀ s t : σ} {n : ℕ} (h : Paid size tick since patience s₀ n s)
    (hsize : size s < size t) (hset : since (tick t) t) :
    Paid size tick since patience s₀ (n + 1) t := by
  obtain ⟨q, k, hq, -, -, hn⟩ := h
  refine ⟨0, tick t, Nat.zero_le _, hset, le_rfl, ?_⟩
  have hmul : (patience + 1) * (size s + 1) ≤ (patience + 1) * size t :=
    Nat.mul_le_mul_left _ hsize
  rw [Nat.mul_add, Nat.mul_one] at hmul
  omega

theorem Paid.waits {s₀ s t : σ} {n : ℕ} (h : Paid size tick since patience s₀ n s)
    (hw : Waits size tick since patience s t) : Paid size tick since patience s₀ (n + 1) t := by
  obtain ⟨q, k, hq, hk, htick, hn⟩ := h
  have hearly := hw.early k hk
  have hlater := hw.later
  refine ⟨q + 1, k, by omega, hw.kept k hk, by omega, ?_⟩
  rw [hw.same]
  omega

/-- The number of steps is bounded by what is done in them. -/
theorem steps_bounded {f : ℕ → σ} {n : ℕ} (hset : ∀ i ≤ n, since (tick (f i)) (f i))
    (hstep : ∀ i < n, Waits size tick since patience (f i) (f (i + 1)) ∨
      size (f i) < size (f (i + 1))) :
    n + (patience + 1) * size (f 0) ≤ (patience + 1) * size (f n) + patience := by
  have hpaid : ∀ i ≤ n, Paid size tick since patience (f 0) i (f i) := by
    intro i hi
    induction i with
    | zero => exact ⟨0, tick (f 0), Nat.zero_le _, hset 0 hi, le_rfl, by omega⟩
    | succ i ih =>
      rcases hstep i hi with hw | hsize
      · exact (ih (Nat.le_of_succ_le hi)).waits hw
      · exact (ih (Nat.le_of_succ_le hi)).grows hsize (hset _ hi)
  obtain ⟨q, -, hq, -, -, hn⟩ := hpaid n le_rfl
  omega

end Deadline
