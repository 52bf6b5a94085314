import Mathlib.Data.List.Perm.Basic

/-! A walk through an array that takes elements out on the way. What fills the place of an element
that is taken out comes from behind it, so the walk goes on at the same index. -/
namespace Sweep

variable {α : Type*} {p : α → Prop} {all out kept rest : List α} {i : ℕ} {a : α}

/-- The walk through `all` stands before the index `i` of `kept`, and has taken out `out`, which are
elements with `p`. In front of `i` there are only elements without. -/
structure Swept (p : α → Prop) (all : List α) (i : ℕ) (out kept : List α) : Prop where
  perm : (out ++ kept).Perm all
  taken : ∀ a ∈ out, p a
  passed : ∀ a ∈ kept.take i, ¬ p a

theorem Swept.start (p : α → Prop) (all : List α) : Swept p all 0 [] all where
  perm := List.Perm.refl all
  taken _ ha := absurd ha List.not_mem_nil
  passed _ ha := absurd ha List.not_mem_nil

/-- An element stays. -/
theorem Swept.pass (h : Swept p all i out kept) (hi : kept[i]? = some a) (ha : ¬ p a) :
    Swept p all (i + 1) out kept where
  perm := h.perm
  taken := h.taken
  passed b hb := by
    rw [List.take_add_one, hi, Option.toList_some] at hb
    rcases List.mem_append.mp hb with hb | hb
    · exact h.passed b hb
    · rwa [List.mem_singleton.mp hb]

/-- An element is taken out, and nothing changes in front of the index. -/
theorem Swept.take (h : Swept p all i out kept) (hperm : (a :: rest).Perm kept) (ha : p a)
    (hfront : rest.take i = kept.take i) : Swept p all i (out ++ [a]) rest where
  perm := by
    rw [List.append_assoc, List.singleton_append]
    exact (hperm.append_left out).trans h.perm
  taken b hb := by
    rcases List.mem_append.mp hb with hb | hb
    · exact h.taken b hb
    · rwa [List.mem_singleton.mp hb]
  passed b hb := h.passed b (hfront ▸ hb)

/-- No element is lost on the way. -/
theorem Swept.length (h : Swept p all i out kept) : out.length + kept.length = all.length := by
  rw [← h.perm.length_eq, List.length_append]

/-- At the end each element with `p` has been taken out, once, and the others are left. -/
theorem Swept.finish [DecidablePred p] (h : Swept p all i out kept) (hi : kept[i]? = none) :
    out.Perm (all.filter (p ·)) ∧ kept.Perm (all.filter (¬ p ·)) := by
  have hkept : ∀ a ∈ kept, ¬ p a := by
    intro a ha
    apply h.passed a
    rwa [List.take_of_length_le (List.getElem?_eq_none_iff.mp hi)]
  have hout := h.perm.filter (p ·)
  have hrest := h.perm.filter (¬ p ·)
  rw [List.filter_append, List.filter_eq_self.mpr (by simpa using h.taken),
    List.filter_eq_nil_iff.mpr (by simpa using hkept), List.append_nil] at hout
  rw [List.filter_append, List.filter_eq_nil_iff.mpr (by simpa using h.taken),
    List.filter_eq_self.mpr (by simpa using hkept), List.nil_append] at hrest
  exact ⟨hout, hrest⟩

end Sweep
