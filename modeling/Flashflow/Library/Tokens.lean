import Mathlib.Data.List.DropRight
import Mathlib.Data.List.Infix

/-! The nonempty pieces of a list between separators, and what cutting the list in two does to
them. -/
namespace Tokens

variable {α : Type*} {p : α → Bool} {a : α} {l m w t : List α}

/-- The nonempty pieces of `l` between the elements that satisfy `p`. -/
def tokens (p : α → Bool) (l : List α) : List (List α) :=
  (l.splitOnP p).filter fun t => !t.isEmpty

@[simp] theorem tokens_nil : tokens p [] = [] := by simp [tokens]

theorem tokens_append_sep (l m : List α) (h : p a = true) :
    tokens p (l ++ a :: m) = tokens p l ++ tokens p m := by
  rw [tokens, List.splitOnP_append_cons l m h, List.filter_append]
  rfl

theorem tokens_sep (h : p a = true) : tokens p (a :: l) = tokens p l := by
  simpa using tokens_append_sep [] l h

theorem tokens_clean (h : ∀ x ∈ l, p x = false) (hl : l ≠ []) : tokens p l = [l] := by
  simp [tokens, List.splitOnP_eq_singleton h, hl]

/-- The first piece reaches up to the next separator. -/
theorem tokens_cons (h : p a = false) : tokens p (a :: l) =
    (a :: l.takeWhile fun x => !p x) :: tokens p (l.dropWhile fun x => !p x) := by
  have hclean : ∀ x ∈ a :: l.takeWhile fun x => !p x, p x = false := by
    intro x hx
    rcases List.mem_cons.mp hx with rfl | hx
    · exact h
    · simpa using List.all_eq_true.mp List.all_takeWhile x hx
  have hl : a :: l = (a :: l.takeWhile fun x => !p x) ++ l.dropWhile fun x => !p x := by simp
  cases hd : l.dropWhile fun x => !p x with
  | nil =>
    rw [hd, List.append_nil] at hl
    rw [hl, tokens_clean hclean (List.cons_ne_nil _ _), tokens_nil]
  | cons b rest =>
    have hb : p b = true := by
      have hhead := List.head?_dropWhile_not (fun x => !p x) l
      rw [hd] at hhead
      simpa using hhead
    rw [hd] at hl
    rw [hl, tokens_append_sep _ _ hb, tokens_clean hclean (List.cons_ne_nil _ _), tokens_sep hb]
    rfl

/-- An element in front starts a piece of its own if it is not followed by another one. -/
theorem tokens_cons_cons {b : α} (ha : p a = false) (hb : p b = false) : ∃ t ts,
    tokens p (b :: l) = (b :: t) :: ts ∧ tokens p (a :: b :: l) = (a :: b :: t) :: ts :=
  ⟨_, _, tokens_cons hb, by rw [tokens_cons ha]; simp [hb]⟩

theorem tokens_cons_end (ha : p a = false) (hl : ∀ b, l.head? = some b → p b = true) :
    tokens p (a :: l) = [a] :: tokens p l := by
  rw [tokens_cons ha]
  cases l with
  | nil => simp
  | cons b l => simp [hl b rfl]

/-- An induction principle: by the first two elements, as far as the pieces depend on them. -/
theorem induction_tokens {motive : List α → Prop} (nil : motive [])
    (sep : ∀ a l, p a = true → motive l → motive (a :: l))
    (last : ∀ a l, p a = false → (∀ b, l.head? = some b → p b = true) → motive l → motive (a :: l))
    (more : ∀ a b l, p a = false → p b = false → motive (b :: l) → motive (a :: b :: l))
    (l : List α) : motive l := by
  induction l with
  | nil => exact nil
  | cons a l ih =>
    cases ha : p a with
    | true => exact sep a l ha ih
    | false =>
      cases l with
      | nil => exact last a [] ha nofun ih
      | cons b l =>
        cases hb : p b with
        | true => exact last a (b :: l) ha (by simp [hb]) ih
        | false => exact more a b l ha hb ih

theorem mem_tokens (ht : t ∈ tokens p l) : t ≠ [] ∧ (∀ x ∈ t, p x = false) ∧ t <:+: l := by
  induction l using induction_tokens (p := p) generalizing t with
  | nil => simp at ht
  | sep a l ha ih =>
    rw [tokens_sep ha] at ht
    obtain ⟨hne, hclean, hin⟩ := ih ht
    exact ⟨hne, hclean, hin.trans (List.infix_cons (List.infix_refl l))⟩
  | last a l ha hl ih =>
    rw [tokens_cons_end ha hl] at ht
    rcases List.mem_cons.mp ht with rfl | ht
    · exact ⟨List.cons_ne_nil _ _, by simpa using ha, List.prefix_append [a] l |>.isInfix⟩
    · obtain ⟨hne, hclean, hin⟩ := ih ht
      exact ⟨hne, hclean, hin.trans (List.infix_cons (List.infix_refl l))⟩
  | more a b l ha hb ih =>
    obtain ⟨u, us, hold, hnew⟩ := tokens_cons_cons (l := l) ha hb
    rw [hnew] at ht
    rcases List.mem_cons.mp ht with rfl | ht
    · obtain ⟨-, hclean, -⟩ := ih (hold ▸ List.mem_cons_self)
      have hu : b :: u <+: b :: l := by
        have hhead := (tokens_cons (l := l) hb).symm.trans hold
        obtain ⟨hu, -⟩ := List.cons.inj hhead
        rw [← hu]
        exact List.prefix_cons_inj b |>.mpr (List.takeWhile_prefix _)
      exact ⟨List.cons_ne_nil _ _, List.forall_mem_cons.mpr ⟨ha, hclean⟩,
        (List.prefix_cons_inj a |>.mpr hu).isInfix⟩
    · obtain ⟨hne, hclean, hin⟩ := ih (hold ▸ List.mem_cons_of_mem _ ht)
      exact ⟨hne, hclean, hin.trans (List.infix_cons (List.infix_refl _))⟩

/-- The pieces together are all that is no separator. -/
theorem flatten_tokens (l : List α) : (tokens p l).flatten = l.filter fun x => !p x := by
  induction l using induction_tokens (p := p) with
  | nil => simp
  | sep a l ha ih => simp [tokens_sep ha, ih, ha]
  | last a l ha hl ih => simp [tokens_cons_end ha hl, ih, ha]
  | more a b l ha hb ih =>
    obtain ⟨t, ts, hold, hnew⟩ := tokens_cons_cons (l := l) ha hb
    rw [hold] at ih
    rw [hnew, List.filter_cons, if_pos (by simp [ha]), ← ih]
    rfl

theorem tokens_eq_nil_iff : tokens p l = [] ↔ ∀ x ∈ l, p x = true := by
  constructor
  · intro h x hx
    have hflat := flatten_tokens (p := p) l
    rw [h, List.flatten_nil, eq_comm, List.filter_eq_nil_iff] at hflat
    simpa using hflat x hx
  · intro h
    refine List.eq_nil_iff_forall_not_mem.mpr fun t ht => ?_
    obtain ⟨hne, hclean, hin⟩ := mem_tokens ht
    obtain ⟨x, hx⟩ := List.exists_mem_of_ne_nil t hne
    simpa [hclean x hx] using h x (hin.subset hx)

/-- A nonempty word without separators occurs in `l` where it occurs in a piece. -/
theorem infix_iff_exists (hw : w ≠ []) (hclean : ∀ x ∈ w, p x = false) :
    w <:+: l ↔ ∃ t ∈ tokens p l, w <:+: t := by
  refine ⟨fun h => ?_, fun ⟨t, ht, hwt⟩ => hwt.trans (mem_tokens ht).2.2⟩
  induction l using induction_tokens (p := p) with
  | nil => exact absurd (List.infix_nil.mp h) hw
  | sep a l ha ih =>
    rw [tokens_sep ha]
    rcases List.infix_cons_iff.mp h with h | h
    · obtain ⟨b, w, rfl⟩ := List.exists_cons_of_ne_nil hw
      obtain ⟨rfl, -⟩ := List.cons_prefix_cons.mp h
      simp [hclean b] at ha
    · exact ih h
  | last a l ha hl ih =>
    rw [tokens_cons_end ha hl]
    rcases List.infix_cons_iff.mp h with h | h
    · obtain ⟨b, w, rfl⟩ := List.exists_cons_of_ne_nil hw
      obtain ⟨rfl, hpre⟩ := List.cons_prefix_cons.mp h
      refine ⟨[b], List.mem_cons_self, ?_⟩
      cases w with
      | nil => exact List.infix_refl _
      | cons c w =>
        obtain ⟨r, rfl⟩ := hpre
        have hc := hl c rfl
        simp [hclean c] at hc
    · obtain ⟨t, ht, hwt⟩ := ih h
      exact ⟨t, List.mem_cons_of_mem _ ht, hwt⟩
  | more a b l ha hb ih =>
    obtain ⟨t, ts, hold, hnew⟩ := tokens_cons_cons (l := l) ha hb
    rcases List.infix_cons_iff.mp h with h | h
    · rw [tokens_cons ha]
      refine ⟨_, List.mem_cons_self, ?_⟩
      obtain ⟨c, w, rfl⟩ := List.exists_cons_of_ne_nil hw
      obtain ⟨rfl, r, hr⟩ := List.cons_prefix_cons.mp h
      have hall : ∀ x ∈ w, (!p x) = true := fun x hx => by simp [hclean x (by simp [hx])]
      rw [← hr, List.takeWhile_append_of_pos hall]
      exact (List.prefix_append (c :: w) _).isInfix
    · rw [hold] at ih
      rw [hnew]
      obtain ⟨u, hu, hwu⟩ := ih h
      rcases List.mem_cons.mp hu with rfl | hu
      · exact ⟨_, List.mem_cons_self, hwu.trans (List.infix_cons (List.infix_refl _))⟩
      · exact ⟨u, List.mem_cons_of_mem _ hu, hwu⟩

/-! Cutting a list in two. -/

/-- The cut between `l` and `m` is not inside a piece. -/
def CutAt (p : α → Bool) (l m : List α) : Prop :=
  (∀ x, l.getLast? = some x → p x = true) ∨ ∀ x, m.head? = some x → p x = true

theorem tokens_append (h : CutAt p l m) : tokens p (l ++ m) = tokens p l ++ tokens p m := by
  rcases h with h | h
  · rcases List.eq_nil_or_concat l with rfl | ⟨l, x, rfl⟩
    · simp
    · have hx : p x = true := h x (by simp)
      rw [List.concat_eq_append, List.append_assoc, List.singleton_append, tokens_append_sep _ _ hx,
        tokens_append_sep _ _ hx, tokens_nil, List.append_nil]
  · cases m with
    | nil => simp
    | cons x m =>
      have hx : p x = true := h x rfl
      rw [tokens_append_sep _ _ hx, tokens_sep hx]

/-- A cut inside a piece makes two of it. -/
theorem length_tokens_append (h : ¬ CutAt p l m) :
    (tokens p (l ++ m)).length + 1 = (tokens p l).length + (tokens p m).length := by
  obtain ⟨h₁, h₂⟩ := not_or.mp h
  obtain ⟨y, hy, hpy⟩ : ∃ y, m.head? = some y ∧ p y = false := by simpa using h₂
  obtain ⟨x, hx, hpx⟩ : ∃ x, l.getLast? = some x ∧ p x = false := by simpa using h₁
  obtain ⟨m, rfl⟩ : ∃ m', m = y :: m' := by
    cases m with
    | nil => cases hy
    | cons z m => exact ⟨m, by simpa using hy⟩
  clear h h₁ h₂ hy
  induction l using induction_tokens (p := p) with
  | nil => cases hx
  | sep a l ha ih =>
    have hl : l ≠ [] := by
      rintro rfl
      obtain rfl : a = x := by simpa using hx
      simp [ha] at hpx
    rw [List.cons_append, tokens_sep ha, tokens_sep ha]
    exact ih (by rwa [List.getLast?_cons_of_ne_nil hl] at hx)
  | last a l ha hl ih =>
    cases l with
    | nil =>
      obtain ⟨t, ts, hold, hnew⟩ := tokens_cons_cons (l := m) ha hpy
      rw [List.singleton_append, hold, hnew,
        tokens_clean (by simpa using ha) (List.cons_ne_nil _ _)]
      simp
      omega
    | cons b l =>
      rw [List.cons_append, tokens_cons_end ha (by simpa using hl b rfl), tokens_cons_end ha hl]
      have hrec := ih (by rwa [List.getLast?_cons_of_ne_nil (List.cons_ne_nil _ _)] at hx)
      simp only [List.length_cons]
      omega
  | more a b l ha hb ih =>
    obtain ⟨t, ts, hold, hnew⟩ := tokens_cons_cons (l := l) ha hb
    obtain ⟨t', ts', hold', hnew'⟩ := tokens_cons_cons (l := l ++ y :: m) ha hb
    have hrec := ih (by rwa [List.getLast?_cons_of_ne_nil (List.cons_ne_nil _ _)] at hx)
    rw [List.cons_append, hold, hold'] at hrec
    rw [List.cons_append, List.cons_append, hnew, hnew']
    exact hrec

theorem length_tokens_append_le (l m : List α) :
    (tokens p (l ++ m)).length ≤ (tokens p l).length + (tokens p m).length := by
  by_cases h : CutAt p l m
  · rw [tokens_append h, List.length_append]
  · have hcut := length_tokens_append h
    omega

/-! What is appended to the last piece. -/

/-- The last piece, if no separator follows it. -/
theorem exists_last (h : l.getLast? = some a) (ha : p a = false) : ∃ k w, l = k ++ w ∧ w ≠ [] ∧
    (∀ x ∈ w, p x = false) ∧ ∀ x, k.getLast? = some x → p x = true := by
  obtain ⟨l, rfl⟩ := List.getLast?_eq_some_iff.mp h
  refine ⟨l.rdropWhile fun x => !p x, (l.rtakeWhile fun x => !p x) ++ [a], ?_, by simp, ?_, ?_⟩
  · rw [← List.append_assoc, List.rdropWhile_append_rtakeWhile]
  · intro x hx
    rcases List.mem_append.mp hx with hx | hx
    · simpa using List.mem_rtakeWhile_imp hx
    · rw [List.mem_singleton.mp hx, ha]
  · intro x hx
    have hne : l.rdropWhile (fun x => !p x) ≠ [] := by
      intro hnil
      simp [hnil] at hx
    have hlast := List.rdropWhile_last_not (fun x => !p x) l hne
    rw [List.getLast?_eq_some_getLast hne] at hx
    simpa [Option.some.inj hx] using hlast

/-- What is appended without separators goes to the last piece. -/
theorem tokens_append_clean (h : l.getLast? = some a) (ha : p a = false)
    (hm : ∀ x ∈ m, p x = false) :
    tokens p (l ++ m) = (tokens p l).dropLast ++ [(tokens p l).getLast?.getD [] ++ m] := by
  obtain ⟨k, w, rfl, hne, hw, hk⟩ := exists_last h ha
  have hwm : ∀ x ∈ w ++ m, p x = false := List.forall_mem_append.mpr ⟨hw, hm⟩
  rw [List.append_assoc, tokens_append (.inl hk), tokens_append (.inl hk), tokens_clean hw hne,
    tokens_clean hwm (List.append_ne_nil_of_left_ne_nil hne m)]
  simp

/-! Texts made of given pieces. -/

/-- `l` is the pieces `ts`, with separators around them. -/
inductive Separated (p : α → Bool) : List (List α) → List α → Prop
  | nil {l : List α} (h : ∀ x ∈ l, p x = true) : Separated p [] l
  | cons {sep t rest : List α} {ts : List (List α)} (hsep : ∀ x ∈ sep, p x = true) (ht : t ≠ [])
      (hclean : ∀ x ∈ t, p x = false) (hcut : ∀ x, rest.head? = some x → p x = true)
      (hrest : Separated p ts rest) : Separated p (t :: ts) (sep ++ (t ++ rest))

theorem Separated.sep_cons {ts : List (List α)} (h : Separated p ts l) (ha : p a = true) :
    Separated p ts (a :: l) := by
  cases h with
  | nil h => exact .nil (List.forall_mem_cons.mpr ⟨ha, h⟩)
  | cons hsep ht hclean hcut hrest =>
    exact .cons (List.forall_mem_cons.mpr ⟨ha, hsep⟩) ht hclean hcut hrest

theorem Separated.tokens_eq {ts : List (List α)} (h : Separated p ts l) : tokens p l = ts := by
  induction h with
  | nil h => exact tokens_eq_nil_iff.mpr h
  | @cons sep t rest ts hsep ht hclean hcut hrest ih =>
    have hlast : ∀ x, sep.getLast? = some x → p x = true := fun x hx =>
      hsep x (List.mem_of_getLast? hx)
    rw [tokens_append (.inl hlast), tokens_eq_nil_iff.mpr hsep, tokens_append (.inr hcut),
      tokens_clean hclean ht, ih]
    rfl

theorem separated_tokens (l : List α) : Separated p (tokens p l) l := by
  induction l using induction_tokens (p := p) with
  | nil =>
    rw [tokens_nil]
    exact .nil (by simp)
  | sep a l ha ih =>
    rw [tokens_sep ha]
    exact ih.sep_cons ha
  | last a l ha hl ih =>
    rw [tokens_cons_end ha hl]
    change Separated p _ ([] ++ ([a] ++ l))
    exact .cons (by simp) (List.cons_ne_nil _ _) (by simpa using ha) hl ih
  | more a b l ha hb ih =>
    obtain ⟨t, ts, hold, hnew⟩ := tokens_cons_cons (l := l) ha hb
    rw [hold] at ih
    rw [hnew]
    generalize hk : b :: l = k at ih
    cases ih with
    | @cons sep _ rest _ hsep _ hclean hcut hrest =>
      cases sep with
      | nil =>
        change Separated p _ ([] ++ ((a :: b :: t) ++ rest))
        exact .cons (by simp) (List.cons_ne_nil _ _) (List.forall_mem_cons.mpr ⟨ha, hclean⟩) hcut
          hrest
      | cons c sep =>
        obtain ⟨rfl, -⟩ := List.cons.inj hk
        simp [hb] at hsep

theorem separated_iff {ts : List (List α)} : Separated p ts l ↔ tokens p l = ts :=
  ⟨Separated.tokens_eq, fun h => h ▸ separated_tokens l⟩

end Tokens
