import Mathlib.Data.List.Count
import Mathlib.Data.List.Nodup
import Flashflow.Library.Arrays

/-! Requests that are served one after the other from labelled offers. An offer may refuse; then the
next one with the label is tried. Whether all requests can be served is a matter of counting. -/
namespace Allocation

variable {C I : Type*} [DecidableEq I]

/-- The free items of each label, in the order in which they are tried. -/
abbrev Offers (C I : Type*) := C → List I

/-- An item is not offered any more. -/
def Offers.without (o : Offers C I) (i : I) : Offers C I := fun c => (o c).filter (· ≠ i)

/-- Every item is offered once, under one label. -/
structure Offers.Distinct (o : Offers C I) : Prop where
  nodup : ∀ c, (o c).Nodup
  label : ∀ {c c' i}, i ∈ o c → i ∈ o c' → c = c'

variable {accepts : I → Bool} {o : Offers C I} {cs : List C} {is : List I} {c : C} {i : I}

/-- The items that serve the requests `cs`, unless one of them is refused by all. -/
def served (accepts : I → Bool) (o : Offers C I) : List C → Option (List I)
  | [] => some []
  | c :: cs =>
    match (o c).find? accepts with
    | none => none
    | some i => (served accepts (o.without i) cs).map (i :: ·)

/-- The items that are tried for one request. -/
def tried (accepts : I → Bool) : List I → List I
  | [] => []
  | i :: is => if accepts i then [i] else i :: tried accepts is

/-- All items that are tried, in order. -/
def attempts (accepts : I → Bool) (o : Offers C I) : List C → List I
  | [] => []
  | c :: cs => tried accepts (o c) ++
    match (o c).find? accepts with
    | none => []
    | some i => attempts accepts (o.without i) cs

omit [DecidableEq I] in
/-- Items that refuse are passed over. -/
theorem tried_append {js : List I} (h : ∀ j ∈ js, accepts j = false) (is : List I) :
    tried accepts (js ++ is) = js ++ tried accepts is := by
  induction js with
  | nil => rfl
  | cons j js ih =>
    obtain ⟨hj, hjs⟩ := List.forall_mem_cons.mp h
    rw [List.cons_append, tried, if_neg (by simp [hj]), ih hjs, List.cons_append]

omit [DecidableEq I] in
theorem tried_first (accepts : I → Bool) (is : List I) : tried accepts is <+: is := by
  induction is with
  | nil => exact List.prefix_rfl
  | cons i is ih =>
    rw [tried]
    split
    · exact List.prefix_append [i] is
    · exact (List.prefix_cons_inj i).mpr ih

theorem mem_without {j : I} : j ∈ o.without i c ↔ j ∈ o c ∧ j ≠ i := by
  simp [Offers.without]

theorem Offers.Distinct.without (h : o.Distinct) (i : I) : (o.without i).Distinct where
  nodup c := (h.nodup c).filter _
  label hc hc' := h.label (mem_without.mp hc).1 (mem_without.mp hc').1

/-- A served item is missing among the offers of its label only. -/
theorem countP_without [BEq C] [LawfulBEq C] (h : o.Distinct) (hi : i ∈ o c)
    (ha : accepts i = true) (c' : C) :
    ((o.without i) c').countP accepts = (o c').countP accepts - if c' == c then 1 else 0 := by
  have herase : (o.without i) c' = (o c').erase i := by
    rw [(h.nodup c').erase_eq_filter]
    exact List.filter_congr fun j _ => by simp [bne, beq_eq_decide]
  rw [herase, List.countP_erase]
  by_cases hc : c' = c
  · simp [hc, hi, ha]
  · have hnot : i ∉ o c' := fun hi' => hc (h.label hi' hi)
    simp [hc, hnot]

/-- All requests are served exactly when for each label there are enough items that accept. -/
theorem served_isSome_iff [BEq C] [LawfulBEq C] (h : o.Distinct) :
    (served accepts o cs).isSome = true ↔ ∀ c, cs.count c ≤ (o c).countP accepts := by
  induction cs generalizing o with
  | nil => simp [served]
  | cons c cs ih =>
    unfold served
    cases hf : (o c).find? accepts with
    | none =>
      -- nobody is left for the first request
      have hzero : (o c).countP accepts = 0 := by
        rw [List.countP_eq_zero]
        exact List.find?_eq_none.mp hf
      simp only [Option.isSome_none, Bool.false_eq_true, false_iff]
      intro hall
      have hc := hall c
      rw [hzero, List.count_cons_self] at hc
      omega
    | some i =>
      have hi : i ∈ o c := List.mem_of_find?_eq_some hf
      have ha : accepts i = true := List.find?_some hf
      have hpos : 0 < (o c).countP accepts := List.countP_pos_iff.mpr ⟨i, hi, ha⟩
      rw [Option.isSome_map, ih (h.without i)]
      refine forall_congr' fun c' => ?_
      rw [countP_without h hi ha c', List.count_cons]
      by_cases hc : c' = c
      · subst hc
        simp only [beq_self_eq_true, ↓reduceIte]
        omega
      · simp [hc, Ne.symm hc]

/-- Every request gets an item of its label that accepts, and no two get the same one. -/
theorem served_spec (h : served accepts o cs = some is) : is.Nodup ∧
    List.Forall₂ (fun c i => i ∈ o c ∧ accepts i = true) cs is := by
  induction cs generalizing o is with
  | nil =>
    obtain rfl : [] = is := by simpa [served] using h
    exact ⟨List.nodup_nil, .nil⟩
  | cons c cs ih =>
    unfold served at h
    cases hf : (o c).find? accepts with
    | none =>
      rw [hf] at h
      cases h
    | some i =>
      rw [hf] at h
      obtain ⟨is', hs, rfl⟩ := Option.map_eq_some_iff.mp h
      obtain ⟨hnd, hall⟩ := ih hs
      have hold : List.Forall₂ (fun c i => i ∈ o c ∧ accepts i = true) cs is' :=
        hall.imp fun _ _ hj => ⟨(mem_without.mp hj.1).1, hj.2⟩
      refine ⟨List.nodup_cons.mpr ⟨fun hmem => ?_, hnd⟩, .cons ?_ hold⟩
      · obtain ⟨c', -, hi, -⟩ := Arrays.exists_left hall hmem
        exact (mem_without.mp hi).2 rfl
      · exact ⟨List.mem_of_find?_eq_some hf, List.find?_some hf⟩

end Allocation
