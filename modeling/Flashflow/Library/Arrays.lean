import Mathlib.Data.List.Forall2

/-! Arrays as lists, and loops that rewrite them cell by cell. -/
namespace Arrays

variable {α β : Type*} {l : List α} {i : ℕ} {x : α}

/-- A list around one of its cells. -/
theorem split_at (h : l[i]? = some x) : ∃ pre post, l = pre ++ x :: post ∧ pre.length = i ∧
    ∀ y, l.set i y = pre ++ y :: post := by
  obtain ⟨hlt, rfl⟩ := List.getElem?_eq_some_iff.mp h
  have hl : l = l.take i ++ l[i] :: l.drop (i + 1) := by
    rw [List.getElem_cons_drop, List.take_append_drop]
  refine ⟨l.take i, l.drop (i + 1), hl, by simp; omega, fun y => ?_⟩
  rw [List.set_eq_take_append_cons_drop, if_pos hlt]

/-- What is in a cell after another one, or this one, has been written. -/
theorem of_getElem?_set {y z : α} {j : ℕ} (h : (l.set i y)[j]? = some z) :
    j = i ∧ z = y ∨ j ≠ i ∧ l[j]? = some z := by
  rw [List.getElem?_set] at h
  split at h
  next heq =>
    split at h
    · exact .inl ⟨heq.symm, (Option.some.inj h).symm⟩
    · cases h
  next hne => exact .inr ⟨Ne.symm hne, h⟩

/-- Writing back what is there. -/
theorem set_same (h : l[i]? = some x) : l.set i x = l := by
  obtain ⟨pre, post, hl, -, hset⟩ := split_at h
  rw [hset, ← hl]

theorem map_set_same (f : α → β) {y : α} (h : l[i]? = some x) (hf : f y = f x) :
    (l.set i y).map f = l.map f := by
  obtain ⟨pre, post, rfl, -, hset⟩ := split_at h
  simp [hset, hf]

/-- `f` applied to the first `i` cells. -/
def mapTo (f : α → α) (i : ℕ) (l : List α) : List α := (l.take i).map f ++ l.drop i

@[simp] theorem mapTo_zero (f : α → α) (l : List α) : mapTo f 0 l = l := by simp [mapTo]

@[simp] theorem mapTo_length (f : α → α) (l : List α) : mapTo f l.length l = l.map f := by
  simp [mapTo]

theorem getElem?_mapTo (f : α → α) (h : l[i]? = some x) : (mapTo f i l)[i]? = some x := by
  obtain ⟨pre, post, rfl, rfl, -⟩ := split_at h
  simp [mapTo]

/-- The next turn of a loop that rewrites every cell. -/
theorem mapTo_succ (f : α → α) (h : l[i]? = some x) :
    (mapTo f i l).set i (f x) = mapTo f (i + 1) l := by
  obtain ⟨pre, post, rfl, rfl, -⟩ := split_at h
  simp only [mapTo, List.take_left', List.drop_left', List.take_append, List.drop_append]
  simp [List.take_of_length_le]

theorem mapTo_succ_of_eq (f : α → α) (h : l[i]? = some x) (hf : f x = x) :
    mapTo f i l = mapTo f (i + 1) l := by
  have hset := mapTo_succ f h
  rwa [hf, set_same (getElem?_mapTo f h)] at hset

/-! Two arrays, cell by cell. -/

theorem exists_left {R : α → β → Prop} {l' : List β} {y : β} (h : List.Forall₂ R l l')
    (hy : y ∈ l') : ∃ x ∈ l, R x y := by
  induction h with
  | nil => cases hy
  | cons hxy _ ih =>
    rcases List.mem_cons.mp hy with rfl | hy
    · exact ⟨_, List.mem_cons_self, hxy⟩
    · obtain ⟨x, hx, hxy⟩ := ih hy
      exact ⟨x, List.mem_cons_of_mem _ hx, hxy⟩

theorem exists_right {R : α → β → Prop} {l' : List β} (h : List.Forall₂ R l l') (hx : x ∈ l) :
    ∃ y ∈ l', R x y := exists_left h.flip hx

end Arrays
