import Mathlib.Data.List.Count
import Mathlib.Data.List.Induction
import Mathlib.Data.List.Perm.Basic

/-! Labelled slots that are taken one at a time: a request for a label takes the first free slot
that carries it. If all requests together are the labels, every one of them finds its slot. -/
namespace Matching

/-- A slot type: its label, whether a slot is taken, and how to take it. -/
structure Slots (S C : Type*) where
  label : S → C
  taken : S → Bool
  take : S → S
  label_take : ∀ s, label (take s) = label s
  taken_take : ∀ s, taken (take s) = true

variable {S C : Type*} [DecidableEq C] {K : Slots S C} {l : List S} {c : C} {k : ℕ}

/-- The first free slot with label `c`. -/
def Slots.firstFree (K : Slots S C) (l : List S) (c : C) : Option ℕ :=
  l.findIdx? fun s => K.label s = c && !K.taken s

/-- The labels of the taken slots. -/
def Slots.takenLabels (K : Slots S C) (l : List S) : List C := (l.filter K.taken).map K.label

theorem split_of_firstFree (h : K.firstFree l c = some k) : ∃ pre s post,
    l = pre ++ s :: post ∧ pre.length = k ∧ K.label s = c ∧ K.taken s = false := by
  obtain ⟨hlt, hs, -⟩ := List.findIdx?_eq_some_iff_getElem.mp h
  refine ⟨l.take k, l[k], l.drop (k + 1), ?_, by simp; omega, by simpa using hs⟩
  rw [List.getElem_cons_drop, List.take_append_drop]

/-- Taking a slot adds its label. -/
theorem takenLabels_modify (h : K.firstFree l c = some k) :
    (K.takenLabels (l.modify k K.take)).Perm (K.takenLabels l ++ [c]) := by
  obtain ⟨pre, s, post, rfl, rfl, hl, ht⟩ := split_of_firstFree h
  have hm : (pre ++ s :: post).modify pre.length K.take = pre ++ K.take s :: post := by
    simp [List.modify_eq_take_cons_drop]
  rw [hm]
  simp only [Slots.takenLabels, List.filter_append, List.filter_cons, K.taken_take, ht,
    List.map_append, ↓reduceIte, Bool.false_eq_true, List.map_cons, K.label_take, hl,
    List.append_assoc]
  exact (List.perm_append_singleton c _).symm.append_left _

omit [DecidableEq C] in
/-- What taking a slot leaves alone. -/
theorem map_modify {T : Type*} {g : S → T} (hg : ∀ s, g (K.take s) = g s) (l : List S) (k : ℕ) :
    (l.modify k K.take).map g = l.map g := by
  induction l generalizing k with
  | nil => simp
  | cons s l ih => cases k <;> simp [hg, ih]

/-- A request finds a slot as long as the labels are not used up. -/
theorem exists_firstFree {rest : List C}
    (h : (K.takenLabels l ++ c :: rest).Perm (l.map K.label)) : ∃ k, K.firstFree l c = some k := by
  by_contra hnone
  have hnone' : ∀ s ∈ l, K.label s = c → K.taken s = true := by
    have hf : K.firstFree l c = none := by
      cases hf : K.firstFree l c with
      | none => rfl
      | some k => exact absurd ⟨k, hf⟩ hnone
    simpa [Slots.firstFree] using hf
  have hcount : (K.takenLabels l).count c = (l.map K.label).count c := by
    simp only [Slots.takenLabels, List.count, List.countP_map, List.countP_filter]
    refine List.countP_congr fun s hs => ?_
    simpa using hnone' s hs
  have hperm := h.count_eq c
  simp [hcount] at hperm

omit [DecidableEq C] in
/-- When the taken labels are all the labels, every slot is taken. -/
theorem all_taken (h : (K.takenLabels l).Perm (l.map K.label)) : ∀ s ∈ l, K.taken s = true := by
  have hlen : (l.filter K.taken).length = l.length := by
    simpa [Slots.takenLabels] using h.length_eq
  exact List.length_filter_eq_length_iff.mp hlen

/-! Serving requests one after the other. -/

/-- The slots after one request. -/
def Slots.serveOne (K : Slots S C) (l : List S) (c : C) : List S :=
  match K.firstFree l c with
  | none => l
  | some k => l.modify k K.take

/-- The slots after the requests `cs`. -/
def Slots.serve (K : Slots S C) (l : List S) (cs : List C) : List S := cs.foldl K.serveOne l

/-- The slot `k` is taken. -/
def Slots.TakenAt (K : Slots S C) (l : List S) (k : ℕ) : Prop :=
  ∃ s, l[k]? = some s ∧ K.taken s = true

@[simp] theorem serve_nil (l : List S) : K.serve l [] = l := rfl

theorem serve_snoc (l : List S) (cs : List C) (c : C) :
    K.serve l (cs ++ [c]) = K.serveOne (K.serve l cs) c := by
  simp [Slots.serve]

theorem map_serve {T : Type*} {g : S → T} (hg : ∀ s, g (K.take s) = g s) (l : List S)
    (cs : List C) : (K.serve l cs).map g = l.map g := by
  induction cs using List.reverseRecOn with
  | nil => rfl
  | append_singleton cs c ih =>
    rw [serve_snoc, ← ih, Slots.serveOne]
    split
    · rfl
    · exact map_modify hg _ _

theorem labels_serve (l : List S) (cs : List C) : (K.serve l cs).map K.label = l.map K.label :=
  map_serve K.label_take l cs

theorem takenAt_serveOne :
    K.TakenAt (K.serveOne l c) k ↔ K.TakenAt l k ∨ K.firstFree l c = some k := by
  unfold Slots.serveOne
  cases hf : K.firstFree l c with
  | none => simp
  | some j =>
    obtain ⟨pre, s, post, rfl, rfl, -, -⟩ := split_of_firstFree hf
    simp only [Slots.TakenAt, List.getElem?_modify, Option.some.injEq]
    by_cases hk : pre.length = k
    · subst hk
      simp [K.taken_take]
    · simp [hk]

theorem not_takenAt_of_firstFree (h : K.firstFree l c = some k) : ¬ K.TakenAt l k := by
  obtain ⟨pre, s, post, rfl, rfl, -, hfree⟩ := split_of_firstFree h
  rintro ⟨t, ht, htaken⟩
  obtain rfl : s = t := by simpa using ht
  rw [hfree] at htaken
  cases htaken

/-- What is taken afterwards has been taken by one of the requests. -/
theorem takenAt_serve {cs : List C} : K.TakenAt (K.serve l cs) k ↔
    K.TakenAt l k ∨
      ∃ pre c post, cs = pre ++ c :: post ∧ K.firstFree (K.serve l pre) c = some k := by
  induction cs using List.reverseRecOn with
  | nil => simp
  | append_singleton cs c ih =>
    rw [serve_snoc, takenAt_serveOne, ih, or_assoc]
    refine or_congr_right ⟨?_, ?_⟩
    · rintro (⟨pre, d, post, rfl, hd⟩ | hc)
      · exact ⟨pre, d, post ++ [c], by simp, hd⟩
      · exact ⟨cs, c, [], rfl, hc⟩
    · rintro ⟨pre, d, post, hcs, hd⟩
      rcases List.eq_nil_or_concat post with rfl | ⟨post, e, rfl⟩
      · obtain ⟨rfl, hc⟩ := List.append_inj' hcs rfl
        obtain rfl : c = d := by simpa using hc
        exact .inr hd
      · rw [List.concat_eq_append, ← List.cons_append, ← List.append_assoc] at hcs
        obtain ⟨rfl, -⟩ := List.append_inj' hcs rfl
        exact .inl ⟨pre, d, post, rfl, hd⟩

/-- As long as the requests fit the labels, each of them is served. -/
theorem takenLabels_serve {cs : List C} (hfree : ∀ s ∈ l, K.taken s = false) (rest : List C)
    (h : (cs ++ rest).Perm (l.map K.label)) : (K.takenLabels (K.serve l cs)).Perm cs := by
  induction cs using List.reverseRecOn generalizing rest with
  | nil =>
    have hnone : l.filter K.taken = [] :=
      List.filter_eq_nil_iff.mpr fun s hs => by simp [hfree s hs]
    simp [Slots.takenLabels, hnone]
  | append_singleton cs c ih =>
    have hall : (cs ++ c :: rest).Perm (l.map K.label) := by simpa using h
    have hcs := ih (c :: rest) hall
    have hserve : (K.takenLabels (K.serve l cs) ++ c :: rest).Perm
        ((K.serve l cs).map K.label) := by
      rw [labels_serve]
      exact (hcs.append_right _).trans hall
    obtain ⟨k, hk⟩ := exists_firstFree hserve
    rw [serve_snoc, Slots.serveOne, hk]
    exact (takenLabels_modify hk).trans (hcs.append_right [c])

theorem exists_firstFree_serve {cs rest : List C} (hfree : ∀ s ∈ l, K.taken s = false)
    (h : (cs ++ c :: rest).Perm (l.map K.label)) : ∃ k, K.firstFree (K.serve l cs) c = some k := by
  have hserve : (K.takenLabels (K.serve l cs) ++ c :: rest).Perm
      ((K.serve l cs).map K.label) := by
    rw [labels_serve]
    exact ((takenLabels_serve hfree _ h).append_right _).trans h
  exact exists_firstFree hserve

theorem all_taken_serve {cs : List C} (hfree : ∀ s ∈ l, K.taken s = false)
    (h : cs.Perm (l.map K.label)) : ∀ s ∈ K.serve l cs, K.taken s = true := by
  refine all_taken ?_
  rw [labels_serve]
  exact (takenLabels_serve hfree [] (by simpa using h)).trans h

/-- No two requests take the same slot. -/
theorem firstFree_serve_inj {pre pre' post : List C} {c' : C}
    (h : K.firstFree (K.serve l pre) c = some k) (hpre : pre' = pre ++ c :: post) :
    K.firstFree (K.serve l pre') c' ≠ some k := by
  intro h'
  exact not_takenAt_of_firstFree h' (takenAt_serve.mpr (.inr ⟨pre, c, post, hpre, h⟩))

end Matching
