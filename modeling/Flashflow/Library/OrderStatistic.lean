import Mathlib.Data.List.Sort
import Mathlib.Order.Basic
import Flashflow.Library.Arrays

/-! Order statistics of a list: which element stands where in ascending order, without sorting. -/
namespace OrderStatistic

variable {α : Type*} [LinearOrder α] {l l' : List α} {k : ℕ} {v w : α}

/-- `v` stands at place `k`, from 0, of `l` in ascending order. -/
def IsRank (l : List α) (k : ℕ) (v : α) : Prop :=
  l.countP (· < v) ≤ k ∧ k < l.countP (· ≤ v)

theorem IsRank.perm (h : IsRank l k v) (hp : l.Perm l') : IsRank l' k v := by
  unfold IsRank at *
  rwa [← hp.countP_eq, ← hp.countP_eq]

theorem countP_le_of_lt (h : w < v) (l : List α) : l.countP (· ≤ w) ≤ l.countP (· < v) := by
  refine List.countP_mono_left fun a _ ha => ?_
  simp only [decide_eq_true_eq] at ha ⊢
  exact lt_of_le_of_lt ha h

/-- How an element of a rank compares is a matter of counting. -/
theorem IsRank.le_iff (h : IsRank l k v) : v ≤ w ↔ k < l.countP (· ≤ w) := by
  constructor
  · intro hle
    refine lt_of_lt_of_le h.2 (List.countP_mono_left fun a _ ha => ?_)
    simp only [decide_eq_true_eq] at ha ⊢
    exact le_trans ha hle
  · intro hk
    by_contra hlt
    have hmono := countP_le_of_lt (not_le.mp hlt) l
    have hv := h.1
    omega

theorem IsRank.ge_iff (h : IsRank l k v) : w ≤ v ↔ l.countP (· < w) ≤ k := by
  constructor
  · intro hle
    refine le_trans (List.countP_mono_left fun a _ ha => ?_) h.1
    simp only [decide_eq_true_eq] at ha ⊢
    exact lt_of_lt_of_le ha hle
  · intro hk
    by_contra hlt
    have hmono := countP_le_of_lt (not_le.mp hlt) l
    have hv := h.2
    omega

/-- There is only one element of a rank. -/
theorem IsRank.unique (h : IsRank l k v) (h' : IsRank l k w) : v = w :=
  le_antisymm (h.le_iff.mpr h'.2) (h'.le_iff.mpr h.2)

/-- If no element gets smaller, not more of them are below a bound. -/
theorem countP_le_of_forall₂ (h : List.Forall₂ (· ≤ ·) l l') (w : α) :
    l'.countP (· ≤ w) ≤ l.countP (· ≤ w) := by
  induction h with
  | nil => exact Nat.le_refl 0
  | @cons a b l l' hab _ ih =>
    rw [List.countP_cons, List.countP_cons]
    by_cases hb : b ≤ w
    · have ha : a ≤ w := le_trans hab hb
      simp only [ha, hb, decide_true, ↓reduceIte]
      exact Nat.succ_le_succ ih
    · simp only [hb, decide_false, Bool.false_eq_true, ↓reduceIte]
      exact Nat.le_trans ih (Nat.le_add_right _ _)

/-- The element of a rank is monotone in the list. -/
theorem IsRank.mono (h : IsRank l k v) (h' : IsRank l' k w) (hle : List.Forall₂ (· ≤ ·) l l') :
    v ≤ w := by
  have hcount := countP_le_of_forall₂ hle w
  rw [h.le_iff]
  exact lt_of_lt_of_le h'.2 hcount

/-- In a sorted list the rank of an element is its index. -/
theorem isRank_of_sorted (hs : l.Pairwise (· ≤ ·)) (h : l[k]? = some v) : IsRank l k v := by
  obtain ⟨front, back, rfl, rfl, -⟩ := Arrays.split_at h
  obtain ⟨-, hafter, hbefore⟩ := List.pairwise_append.mp hs
  constructor
  · have hnone : (v :: back).countP (· < v) = 0 := by
      refine List.countP_eq_zero.mpr fun a ha => ?_
      rw [decide_eq_true_eq, not_lt]
      rcases List.mem_cons.mp ha with rfl | ha
      · exact le_rfl
      · exact List.rel_of_pairwise_cons hafter ha
    rw [List.countP_append, hnone]
    exact List.countP_le_length
  · have hall : front.countP (· ≤ v) = front.length :=
      List.countP_eq_length.mpr fun a ha => by
        rw [decide_eq_true_eq]
        exact hbefore a ha v List.mem_cons_self
    rw [List.countP_append, hall, List.countP_cons]
    simp

/-- Sorting a copy and taking the element at `k` gives the element of that rank. -/
theorem isRank_insertionSort (h : (l.insertionSort (· ≤ ·))[k]? = some v) : IsRank l k v :=
  (isRank_of_sorted (List.pairwise_insertionSort (· ≤ ·) l) h).perm (List.perm_insertionSort _ l)

end OrderStatistic
