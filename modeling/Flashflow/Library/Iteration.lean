import Mathlib.Data.List.Sort
import Mathlib.Order.Basic

/-! Iteration over an unordered table: the entries in the order of an arbitrary rank of their
keys. Every order of the entries is the order of some rank. -/
namespace Iteration

variable {κ α : Type*}

/-- The entries of `l` in the order in which a table with hash rank `rank` yields them. -/
def ranked (rank : κ → ℕ) (key : α → κ) (l : List α) : List α :=
  l.insertionSort (fun a b => rank (key a) ≤ rank (key b))

variable {rank : κ → ℕ} {key : α → κ} {l : List α} {a : α} {p : α → Bool}

theorem ranked_perm (rank : κ → ℕ) (key : α → κ) (l : List α) :
    (ranked rank key l).Perm l := List.perm_insertionSort _ l

@[simp] theorem mem_ranked : a ∈ ranked rank key l ↔ a ∈ l := (ranked_perm rank key l).mem_iff

theorem ranked_sorted (rank : κ → ℕ) (key : α → κ) (l : List α) :
    (ranked rank key l).Pairwise (fun a b => rank (key a) ≤ rank (key b)) := by
  have : IsTrans α (fun a b => rank (key a) ≤ rank (key b)) := ⟨fun _ _ _ h h' => h.trans h'⟩
  have : Std.Total (fun a b : α => rank (key a) ≤ rank (key b)) := ⟨fun _ _ => le_total _ _⟩
  exact List.pairwise_insertionSort _ l

/-- A search in iteration order finds an entry exactly when one is there. -/
theorem find?_ranked_eq_none : (ranked rank key l).find? p = none ↔ ∀ a ∈ l, p a = false := by
  simp

theorem find?_ranked_some (h : (ranked rank key l).find? p = some a) : a ∈ l ∧ p a = true :=
  ⟨mem_ranked.mp (List.mem_of_find?_eq_some h), List.find?_some h⟩

/-- Whichever suitable entry one picks, some iteration order yields it first. -/
theorem exists_rank_find? [DecidableEq κ] (key : α → κ) (p : α → Bool) {a : α} {l : List α}
    (hkey : ∀ b ∈ l, key b = key a → b = a)
    (ha : a ∈ l) (hp : p a = true) : ∃ rank : κ → ℕ, (ranked rank key l).find? p = some a := by
  let rank : κ → ℕ := fun k => if k = key a then 0 else 1
  refine ⟨rank, ?_⟩
  cases hf : (ranked rank key l).find? p with
  | none => simp [find?_ranked_eq_none.mp hf a ha] at hp
  | some b =>
    obtain ⟨-, pre, post, heq, hpre⟩ := List.find?_eq_some_iff_append.mp hf
    have hmem : a ∈ pre ++ b :: post := heq ▸ mem_ranked.mpr ha
    -- `a` is not before `b`, and nothing after `b` has a smaller rank
    have hle : rank (key b) ≤ rank (key a) := by
      rcases List.mem_append.mp hmem with h | h
      · have := hpre a h
        simp [hp] at this
      · rcases List.mem_cons.mp h with rfl | h
        · exact le_rfl
        · have hs := ranked_sorted rank key l
          rw [heq, List.pairwise_append] at hs
          exact List.rel_of_pairwise_cons hs.2.1 h
    have hkb : key b = key a := by
      by_contra hne
      simp [rank, hne] at hle
    rw [hkey b (find?_ranked_some hf).1 hkb]

end Iteration
