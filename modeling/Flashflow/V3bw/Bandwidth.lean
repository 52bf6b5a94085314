import Mathlib.Algebra.BigOperators.Group.List.Basic
import Mathlib.Algebra.Order.BigOperators.Group.List
import Mathlib.Algebra.Ring.Int.Defs
import Mathlib.Data.List.Dedup
import Flashflow.Library.OrderStatistic
import Flashflow.V3bw.Generate

/-! The bandwidth file is what it is meant to be: one line for each relay, with an order statistic
of sums that do not depend on the order of the input. -/
namespace Flashflow
open Outcome OrderStatistic Iteration

/-! What the file is to contain, from the accepted triples alone. -/

/-- The timestamp of the first triple of a relay. -/
def firstTs (ts : List Triple) (fp : Bytes) : Option Int :=
  (ts.find? fun t => t.fp = fp).map Triple.ts

/-- The sum over all triples of a relay in one second. -/
def secondSum (ts : List Triple) (fp : Bytes) (sec : Int) : Int :=
  ((ts.filter fun t => t.fp = fp ∧ t.ts = sec).map Triple.bw).sum

/-- `used` is one more than the largest offset below 60 that occurs. -/
structure Used (ts : List Triple) (fp : Bytes) (first : Int) (used : ℕ) : Prop where
  occurs : ∃ o < numMsmsInMsmInfo, used = o + 1 ∧ ∃ t ∈ ts, t.fp = fp ∧ t.ts = first + o
  largest : ∀ o < numMsmsInMsmInfo, ∀ t ∈ ts, t.fp = fp → t.ts = first + o → o < used

/-- `bw` is the bandwidth of a relay: the minimum if too few seconds were seen, and otherwise the
sum of rank `used / 2` among the sums of the seconds from the first one on. -/
def IsBandwidth (ts : List Triple) (fp : Bytes) (bw : Int) : Prop :=
  ∃ first used, firstTs ts fp = some first ∧ Used ts fp first used ∧
    if used < secsRequired then bw = minBw
    else IsRank ((List.range used).map fun o : ℕ => secondSum ts fp (first + o)) (used / 2) bw

/-- The additions for the triple `t` after the triples `ts` stay in range. -/
structure StepFits (ts : List Triple) (t : Triple) : Prop where
  stop : ∀ first, firstTs ts t.fp = some first → first ≤ t.ts → first + numMsmsInMsmInfo ≤ longMax
  sum : ∀ first, firstTs ts t.fp = some first → first ≤ t.ts → t.ts < first + numMsmsInMsmInfo →
    secondSum ts t.fp t.ts + t.bw ≤ longMax

/-- All sums and the ends of all windows fit in a `long`. -/
structure FitsLong (ts : List Triple) : Prop where
  ends : ∀ t ∈ ts, t.ts + numMsmsInMsmInfo ≤ longMax
  sums : ∀ fp first, firstTs ts fp = some first → ∀ o < numMsmsInMsmInfo,
    secondSum ts fp (first + o) ≤ longMax

section Spec
variable {ts ts' : List Triple} {t : Triple} {fp : Bytes} {first sec bw bw' : Int} {used used' : ℕ}

theorem Used.unique (h : Used ts fp first used) (h' : Used ts fp first used') : used = used' := by
  obtain ⟨o, ho, rfl, t, ht, hfp, hts⟩ := h.occurs
  obtain ⟨o', ho', rfl, t', ht', hfp', hts'⟩ := h'.occurs
  have h₁ := h'.largest o ho t ht hfp hts
  have h₂ := h.largest o' ho' t' ht' hfp' hts'
  omega

/-- A relay has one bandwidth. -/
theorem IsBandwidth.unique (h : IsBandwidth ts fp bw) (h' : IsBandwidth ts fp bw') : bw = bw' := by
  obtain ⟨first, used, hfirst, hused, hbw⟩ := h
  obtain ⟨first', used', hfirst', hused', hbw'⟩ := h'
  obtain rfl : first = first' := Option.some.inj (hfirst.symm.trans hfirst')
  obtain rfl := hused.unique hused'
  split at hbw
  next hlt => rw [hbw, if_pos hlt] at *; exact hbw'.symm
  next hlt =>
    rw [if_neg hlt] at hbw'
    exact hbw.unique hbw'

theorem secondSum_perm (h : ts.Perm ts') (fp : Bytes) (sec : Int) :
    secondSum ts fp sec = secondSum ts' fp sec := ((h.filter _).map _).sum_eq

/-- Only the first triple of a relay has to stay the first. -/
theorem IsBandwidth.perm (h : IsBandwidth ts fp bw) (hp : ts.Perm ts')
    (hf : firstTs ts fp = firstTs ts' fp) : IsBandwidth ts' fp bw := by
  obtain ⟨first, used, hfirst, ⟨⟨o, ho, hu, t, ht, hfp, hts⟩, hlargest⟩, hbw⟩ := h
  refine ⟨first, used, hf ▸ hfirst,
    ⟨⟨o, ho, hu, t, hp.mem_iff.mp ht, hfp, hts⟩, fun o ho t ht => ?_⟩, ?_⟩
  · exact hlargest o ho t (hp.mem_iff.mpr ht)
  · simpa only [secondSum_perm hp] using hbw

theorem FitsLong.perm (h : FitsLong ts) (hp : ts.Perm ts')
    (hf : ∀ fp, firstTs ts fp = firstTs ts' fp) : FitsLong ts' where
  ends t ht := h.ends t (hp.mem_iff.mpr ht)
  sums fp first hfirst o ho := by
    rw [← secondSum_perm hp]
    exact h.sums fp first ((hf fp).trans hfirst) o ho

/-! The triples of other relays do not matter. -/

theorem firstTs_filter : firstTs (ts.filter fun t => t.fp = fp) fp = firstTs ts fp := by
  simp [firstTs, List.find?_filter]

theorem secondSum_filter :
    secondSum (ts.filter fun t => t.fp = fp) fp sec = secondSum ts fp sec := by
  simp only [secondSum, List.filter_filter]
  congr 3
  funext t
  by_cases h : t.fp = fp <;> simp [h]

theorem used_filter :
    Used (ts.filter fun t => t.fp = fp) fp first used ↔ Used ts fp first used := by
  have hmem : ∀ t, t ∈ ts.filter (fun t => t.fp = fp) ↔ t ∈ ts ∧ t.fp = fp := by simp
  constructor
  · intro h
    obtain ⟨o, ho, rfl, t, ht, hfp, hts⟩ := h.occurs
    exact ⟨⟨o, ho, rfl, t, ((hmem t).mp ht).1, hfp, hts⟩,
      fun o ho t ht hfp => h.largest o ho t ((hmem t).mpr ⟨ht, hfp⟩) hfp⟩
  · intro h
    obtain ⟨o, ho, rfl, t, ht, hfp, hts⟩ := h.occurs
    exact ⟨⟨o, ho, rfl, t, (hmem t).mpr ⟨ht, hfp⟩, hfp, hts⟩,
      fun o ho t ht => h.largest o ho t ((hmem t).mp ht).1⟩

theorem isBandwidth_filter :
    IsBandwidth (ts.filter fun t => t.fp = fp) fp bw ↔ IsBandwidth ts fp bw := by
  simp only [IsBandwidth, firstTs_filter, secondSum_filter, used_filter]

/-! One more triple. -/

theorem secondSum_snoc (ts : List Triple) (t : Triple) (fp : Bytes) (sec : Int) :
    secondSum (ts ++ [t]) fp sec =
      secondSum ts fp sec + if t.fp = fp ∧ t.ts = sec then t.bw else 0 := by
  rw [secondSum, List.filter_append, List.map_append, List.sum_append, ← secondSum]
  by_cases h : t.fp = fp ∧ t.ts = sec <;> simp [h]

theorem firstTs_snoc_of_some (h : firstTs ts fp = some first) (t : Triple) :
    firstTs (ts ++ [t]) fp = some first := by
  obtain ⟨u, hu, rfl⟩ := Option.map_eq_some_iff.mp h
  simp [firstTs, hu]

theorem firstTs_mem (h : firstTs ts fp = some first) : ∃ t ∈ ts, t.fp = fp ∧ t.ts = first := by
  obtain ⟨t, ht, rfl⟩ := Option.map_eq_some_iff.mp h
  exact ⟨t, List.mem_of_find?_eq_some ht, by simpa using List.find?_some ht, rfl⟩

theorem FitsLong.of_snoc (h : FitsLong (ts ++ [t])) (hbw : 0 ≤ t.bw) : FitsLong ts where
  ends u hu := h.ends u (List.mem_append_left _ hu)
  sums fp first hfirst o ho := by
    have hsum := h.sums fp first (firstTs_snoc_of_some hfirst t) o ho
    rw [secondSum_snoc] at hsum
    split at hsum <;> omega

/-- All sums fit if the sum of everything does. -/
theorem fitsLong_of_total (h : ∀ t ∈ ts, 0 ≤ t.bw)
    (hends : ∀ t ∈ ts, t.ts + numMsmsInMsmInfo ≤ longMax)
    (htotal : (ts.map Triple.bw).sum ≤ longMax) : FitsLong ts where
  ends := hends
  sums fp first _ o _ := by
    refine le_trans (List.Sublist.sum_le_sum (List.filter_sublist.map _) fun b hb => ?_) htotal
    obtain ⟨t, ht, rfl⟩ := List.mem_map.mp hb
    exact h t ht

theorem secondSum_nonneg (h : ∀ t ∈ ts, 0 ≤ t.bw) (fp : Bytes) (sec : Int) :
    0 ≤ secondSum ts fp sec := by
  apply List.sum_nonneg
  intro b hb
  obtain ⟨t, ht, rfl⟩ := List.mem_map.mp hb
  exact h t (List.mem_filter.mp ht).1

end Spec

/-! The table while the input is read. -/

/-- The entry holds what the triples so far say about its relay. -/
structure Summarizes (ts : List Triple) (m : MsmInfo) : Prop where
  first : firstTs ts m.fp = some m.first
  sums : ∀ o (h : o < numMsmsInMsmInfo), m.msms[o] = secondSum ts m.fp (m.first + o)
  used : Used ts m.fp m.first m.used

section Entry
variable {ts : List Triple} {t : Triple} {m : MsmInfo}

/-- A triple outside of the window of an entry, or of another relay, does not matter. -/
theorem Summarizes.skip (h : Summarizes ts m) (hout : t.fp = m.fp → ∀ o < numMsmsInMsmInfo,
    t.ts ≠ m.first + o) : Summarizes (ts ++ [t]) m where
  first := firstTs_snoc_of_some h.first t
  sums o ho := by
    have hno : ¬ (t.fp = m.fp ∧ t.ts = m.first + o) := fun hin => hout hin.1 o ho hin.2
    rw [secondSum_snoc, if_neg hno, add_zero, h.sums o ho]
  used := by
    obtain ⟨o, ho, hu, u, hmem, hfp, hts⟩ := h.used.occurs
    refine ⟨⟨o, ho, hu, u, List.mem_append_left _ hmem, hfp, hts⟩, fun o ho u hmem hfp hts => ?_⟩
    rcases List.mem_append.mp hmem with hmem | hmem
    · exact h.used.largest o ho u hmem hfp hts
    · obtain rfl := List.mem_singleton.mp hmem
      exact absurd hts (hout hfp o ho)

/-- A triple in the window is added to its second. -/
theorem Summarizes.add (h : Summarizes ts m) (hfp : t.fp = m.fp) {o : ℕ}
    (ho : o < numMsmsInMsmInfo) (hts : t.ts = m.first + o) : Summarizes (ts ++ [t])
      { m with msms := m.msms.set o (m.msms[o] + t.bw),
               used := if o ≥ m.used then o + 1 else m.used } where
  first := firstTs_snoc_of_some h.first t
  sums i hi := by
    simp only [secondSum_snoc, Vector.getElem_set, hfp, hts, true_and]
    by_cases hoi : o = i
    · subst hoi
      simp [h.sums o ho]
    · have hne : ¬ m.first + (o : Int) = m.first + i := by omega
      rw [if_neg hoi, if_neg hne, add_zero, h.sums i hi]
  used := by
    obtain ⟨l, hl, hu, u, hmem, hufp, huts⟩ := h.used.occurs
    constructor
    · by_cases hge : o ≥ m.used
      · exact ⟨o, ho, if_pos hge, t, by simp, hfp, hts⟩
      · exact ⟨l, hl, (if_neg hge).trans hu, u, List.mem_append_left _ hmem, hufp, huts⟩
    · intro i hi u hmem hufp huts
      rcases List.mem_append.mp hmem with hmem | hmem
      · have hlt := h.used.largest i hi u hmem hufp huts
        simp only
        split <;> omega
      · obtain rfl := List.mem_singleton.mp hmem
        have hio : i = o := by
          simp only at huts
          omega
        subst hio
        simp only
        split <;> omega

/-- The first triple of a relay. -/
theorem summarizes_init (hnew : ∀ u ∈ ts, u.fp ≠ t.fp) :
    Summarizes (ts ++ [t]) (msmInfoInit t.fp t.ts t.bw) where
  first := by
    have hnone : ts.find? (fun u => u.fp = t.fp) = none := by simpa using hnew
    change firstTs (ts ++ [t]) t.fp = some t.ts
    rw [firstTs, List.find?_append, hnone]
    simp
  sums o ho := by
    have hnil : ts.filter (fun u => u.fp = t.fp ∧ u.ts = t.ts + o) = [] := by
      apply List.filter_eq_nil_iff.mpr
      intro u hu
      simp [hnew u hu]
    have hzero : secondSum ts t.fp (t.ts + o) = 0 := by rw [secondSum, hnil]; rfl
    simp only [msmInfoInit, secondSum_snoc, hzero, true_and, Vector.getElem_set,
      Vector.getElem_replicate]
    by_cases h0 : 0 = o
    · subst h0
      simp
    · have hne : ¬ t.ts = t.ts + (o : Int) := by omega
      simp [h0, hne]
  used := by
    refine ⟨⟨0, by decide, rfl, t, by simp, rfl, by simp [msmInfoInit]⟩,
      fun o ho u hmem hfp hts => ?_⟩
    rcases List.mem_append.mp hmem with hmem | hmem
    · exact absurd hfp (hnew u hmem)
    · obtain rfl := List.mem_singleton.mp hmem
      simp only [msmInfoInit] at hts ⊢
      omega

theorem longAdd_eq {a b : Int} (h₁ : longMin ≤ a + b) (h₂ : a + b ≤ longMax) :
    longAdd a b = .ok (a + b) := if_pos ⟨h₁, h₂⟩

theorem longAdd_error {a b : Int} (h : longMax < a + b) :
    longAdd a b = .error .signedOverflow := if_neg fun hin => not_lt.mpr hin.2 h

/-- `msm_info_add` takes the triple into account, or overflows. -/
theorem msmInfoAdd_step (h : Summarizes ts m) (hfp : t.fp = m.fp)
    (hpos : ∀ u ∈ ts ++ [t], 0 ≤ u.ts ∧ 0 ≤ u.bw) :
    (StepFits ts t ∧
      ∃ m', msmInfoAdd m t.ts t.bw = .ok m' ∧ m'.fp = m.fp ∧ Summarizes (ts ++ [t]) m') ∨
    (¬ StepFits ts t ∧ msmInfoAdd m t.ts t.bw = .error .signedOverflow) := by
  have hmin : longMin ≤ 0 := by decide
  have hfirst : firstTs ts t.fp = some m.first := hfp ▸ h.first
  have huniq : ∀ first, firstTs ts t.fp = some first → first = m.first := by
    intro first hf
    rw [hfirst] at hf
    exact (Option.some.inj hf).symm
  rw [msmInfoAdd]
  by_cases hlt : t.ts < m.first
  · rw [if_pos hlt]
    refine .inl ⟨⟨fun first hf hle => ?_, fun first hf hle => ?_⟩, m, rfl, rfl,
      h.skip fun _ o _ => by omega⟩ <;>
    · rw [huniq first hf] at hle
      omega
  obtain ⟨u, hu, -, hufirst⟩ := firstTs_mem h.first
  have hunn := (hpos u (List.mem_append_left _ hu)).1
  rw [if_neg hlt]
  by_cases hend : m.first + numMsmsInMsmInfo ≤ longMax
  · rw [longAdd_eq (by omega) hend]
    simp only [bind, Except.bind]
    by_cases hge : t.ts ≥ m.first + numMsmsInMsmInfo
    · rw [if_pos hge]
      refine .inl ⟨⟨fun first hf _ => huniq first hf ▸ hend, fun first hf _ hin => ?_⟩, m, rfl, rfl,
        h.skip fun _ o ho => by omega⟩
      rw [huniq first hf] at hin
      omega
    · have ho : (t.ts - m.first).toNat < numMsmsInMsmInfo := by omega
      have hts : t.ts = m.first + (t.ts - m.first).toNat := by omega
      have hold : m.msms[(t.ts - m.first).toNat] = secondSum ts t.fp t.ts := by
        rw [h.sums _ ho, ← hts, hfp]
      have hnn := secondSum_nonneg (fun u hu => (hpos u (List.mem_append_left _ hu)).2) t.fp t.ts
      have hbw := (hpos t (by simp)).2
      simp only [if_neg hge, dif_pos ho]
      by_cases hsum : secondSum ts t.fp t.ts + t.bw ≤ longMax
      · rw [longAdd_eq (by omega) (by omega)]
        exact .inl ⟨⟨fun first hf _ => huniq first hf ▸ hend, fun _ _ _ _ => hsum⟩, _, rfl, rfl,
          h.add hfp ho hts⟩
      · rw [longAdd_error (by omega)]
        exact .inr ⟨fun hfit => hsum (hfit.sum m.first hfirst (by omega) (by omega)), rfl⟩
  · rw [longAdd_error (by omega)]
    exact .inr ⟨fun hfit => hend (hfit.stop m.first hfirst (by omega)), rfl⟩

end Entry

/-- Each relay seen so far has an entry that summarizes it. -/
structure Tabulates (ts : List Triple) (ht : MsmTable) : Prop where
  entries : ∀ m ∈ ht.entries, Summarizes ts m
  all : ∀ t ∈ ts, ∃ m ∈ ht.entries, m.fp = t.fp

section Table
variable {ts : List Triple} {t : Triple} {ht : MsmTable}

/-- The triple is taken into account, or an addition overflows. -/
theorem Tabulates.addTriple (h : Tabulates ts ht) (hpos : ∀ u ∈ ts ++ [t], 0 ≤ u.ts ∧ 0 ≤ u.bw) :
    (StepFits ts t ∧ ∃ ht', Flashflow.addTriple ht t = .ok ht' ∧ Tabulates (ts ++ [t]) ht') ∨
    (¬ StepFits ts t ∧ Flashflow.addTriple ht t = .error .signedOverflow) := by
  unfold Flashflow.addTriple
  split
  next hnone =>
    have hother : ∀ m ∈ ht.entries, m.fp ≠ t.fp := by
      simpa [MsmTable.lookup] using hnone
    have hnew : ∀ u ∈ ts, u.fp ≠ t.fp := by
      intro u hu hfp
      obtain ⟨m, hm, hmfp⟩ := h.all u hu
      exact hother m hm (hmfp.trans hfp)
    have hfirst : ∀ first, firstTs ts t.fp ≠ some first := by
      intro first hf
      obtain ⟨u, hu, hfp, -⟩ := firstTs_mem hf
      exact hnew u hu hfp
    have hfit : StepFits ts t :=
      ⟨fun first hf => absurd hf (hfirst first), fun first hf => absurd hf (hfirst first)⟩
    refine .inl ⟨hfit, _, rfl, ⟨fun m hm => ?_, fun u hu => ?_⟩⟩
    · rcases List.mem_cons.mp hm with rfl | hm
      · exact summarizes_init hnew
      · exact (h.entries m hm).skip fun hfp => absurd hfp.symm (hother m hm)
    · rcases List.mem_append.mp hu with hu | hu
      · obtain ⟨m, hm, hfp⟩ := h.all u hu
        exact ⟨m, List.mem_cons_of_mem _ hm, hfp⟩
      · obtain rfl := List.mem_singleton.mp hu
        exact ⟨_, List.mem_cons_self, rfl⟩
  next m hsome =>
    have hm : m ∈ ht.entries := List.mem_of_find?_eq_some hsome
    have hfp : m.fp = t.fp := by simpa using List.find?_some hsome
    rcases msmInfoAdd_step (h.entries m hm) hfp.symm hpos with
      ⟨hfit, m', hadd, hfp', hsum⟩ | ⟨hno, hadd⟩
    · refine .inl ⟨hfit, ht.update m', by rw [hadd]; rfl, ⟨fun e he => ?_, fun u hu => ?_⟩⟩
      · obtain ⟨e₀, he₀, rfl⟩ := List.mem_map.mp he
        split
        · exact hsum
        next hne => exact (h.entries e₀ he₀).skip fun he => absurd (he ▸ hfp'.trans hfp).symm hne
      · have hold : ∃ e ∈ ht.entries, e.fp = u.fp := by
          rcases List.mem_append.mp hu with hu | hu
          · exact h.all u hu
          · obtain rfl := List.mem_singleton.mp hu
            exact ⟨m, hm, hfp⟩
        obtain ⟨e, he, hefp⟩ := hold
        refine ⟨_, List.mem_map_of_mem he, ?_⟩
        split
        next heq => rw [← heq, hefp]
        · exact hefp
    · exact .inr ⟨hno, by rw [hadd]; rfl⟩

/-- Every triple fits after the ones in front of it. -/
def FitsInTurn (ts : List Triple) : Prop :=
  ∀ pre t post, ts = pre ++ t :: post → StepFits pre t

theorem fitsInTurn_snoc : FitsInTurn (ts ++ [t]) ↔ FitsInTurn ts ∧ StepFits ts t := by
  constructor
  · intro h
    refine ⟨fun pre u post hts => h pre u (post ++ [t]) ?_, h ts t [] rfl⟩
    rw [hts, List.append_assoc, List.cons_append]
  · rintro ⟨h, hfit⟩ pre u post hts
    rcases List.eq_nil_or_concat post with rfl | ⟨post, v, rfl⟩
    · obtain ⟨rfl, hu⟩ := List.append_inj' hts rfl
      obtain rfl : t = u := by simpa using hu
      exact hfit
    · have hts' : ts ++ [t] = (pre ++ u :: post) ++ [v] := by simpa using hts
      exact h pre u post (List.append_inj' hts' rfl).1

/-- Reading all triples fills the table, or an addition overflows. -/
theorem tabulates_foldlM (hpos : ∀ t ∈ ts, 0 ≤ t.ts ∧ 0 ≤ t.bw) :
    (FitsInTurn ts ∧ ∃ ht, ts.foldlM Flashflow.addTriple .empty = .ok ht ∧ Tabulates ts ht) ∨
    (¬ FitsInTurn ts ∧ ts.foldlM Flashflow.addTriple .empty = .error .signedOverflow) := by
  induction ts using List.reverseRecOn with
  | nil =>
    refine .inl ⟨fun pre t post hts => ?_, .empty, rfl, ⟨fun m hm => ?_, fun t ht => ?_⟩⟩
    · simp at hts
    · exact absurd hm List.not_mem_nil
    · exact absurd ht List.not_mem_nil
  | append_singleton ts t ih =>
    rw [List.foldlM_append, fitsInTurn_snoc]
    rcases ih fun u hu => hpos u (List.mem_append_left _ hu) with
      ⟨hfit, ht, hfold, htab⟩ | ⟨hno, hfold⟩
    · rw [hfold]
      rcases htab.addTriple hpos with ⟨hstep, ht', hadd, htab'⟩ | ⟨hno, hadd⟩
      · refine .inl ⟨⟨hfit, hstep⟩, ht', ?_, htab'⟩
        simp [bind, Except.bind, hadd, pure, Except.pure]
      · refine .inr ⟨fun h => hno h.2, ?_⟩
        simp [bind, Except.bind, hadd]
    · rw [hfold]
      exact .inr ⟨fun h => hno h.1, rfl⟩

/-- With everything in range each single step is. -/
theorem FitsLong.inTurn (h : FitsLong ts) (hpos : ∀ t ∈ ts, 0 ≤ t.bw) : FitsInTurn ts := by
  induction ts using List.reverseRecOn with
  | nil => exact fun pre t post hts => by simp at hts
  | append_singleton ts t ih =>
    have hts := ih (h.of_snoc (hpos t (by simp))) fun u hu => hpos u (List.mem_append_left _ hu)
    refine fitsInTurn_snoc.mpr ⟨hts, ⟨fun first hf _ => ?_, fun first hf hle hlt => ?_⟩⟩
    · obtain ⟨u, hu, -, rfl⟩ := firstTs_mem hf
      exact h.ends u (List.mem_append_left _ hu)
    · have hsum := h.sums t.fp first (firstTs_snoc_of_some hf t) (t.ts - first).toNat (by omega)
      have hsec : first + ((t.ts - first).toNat : Int) = t.ts := by omega
      rwa [hsec, secondSum_snoc, if_pos ⟨rfl, rfl⟩] at hsum

end Table

/-! From the input to the file. -/

theorem acceptWords_nonneg {fp code kind ts bwdown : Bytes} {t : Triple}
    (h : acceptWords fp code kind ts bwdown = some t) : 0 ≤ t.ts ∧ 0 ≤ t.bw := by
  simp only [acceptWords, Option.ite_none_left_eq_some, Option.some.injEq] at h
  obtain ⟨-, -, -, hts, hbw, rfl⟩ := h
  exact ⟨not_lt.mp hts, not_lt.mp hbw⟩

theorem readLine_nonneg {line : Bytes} {t : Triple} (h : readLine line = .ok (some t)) :
    0 ≤ t.ts ∧ 0 ≤ t.bw := by
  simp only [readLine, bind_eq_ok] at h
  obtain ⟨line', -, h⟩ := h
  split at h
  · exact acceptWords_nonneg (pure_eq_ok.mp h)
  · cases pure_eq_ok.mp h

/-- The loop of `read_input_to_ht` adds the accepted triples one by one. -/
theorem foldlM_lines {lines : List Bytes} {os : List (Option Triple)} (ht : MsmTable)
    (h : lines.mapM readLine = .ok os) :
    lines.foldlM (fun ht line => do
      match ← readLine line with
      | none => pure ht
      | some t => addTriple ht t) ht = (os.filterMap id).foldlM addTriple ht := by
  induction lines generalizing os ht with
  | nil =>
    obtain rfl : [] = os := pure_eq_ok.mp h
    rfl
  | cons line lines ih =>
    simp only [List.mapM_cons, bind_eq_ok, pure_eq_ok] at h
    obtain ⟨o, ho, os', hos, rfl⟩ := h
    rw [List.foldlM_cons, ho]
    cases o with
    | none =>
      have hskip : (none :: os').filterMap id = os'.filterMap id := rfl
      rw [hskip]
      exact ih ht hos
    | some t =>
      have htake : (some t :: os').filterMap id = t :: os'.filterMap id := rfl
      rw [htake, List.foldlM_cons]
      exact bind_congr fun ht' => ih ht' hos

theorem acceptedTriples_ok {input : Bytes} {ts : List Triple} (h : acceptedTriples input = .ok ts) :
    (∀ t ∈ ts, 0 ≤ t.ts ∧ 0 ≤ t.bw) ∧
      readInputToHt input = ts.foldlM addTriple .empty := by
  simp only [acceptedTriples, readLines, bind_eq_ok, pure_eq_ok] at h
  obtain ⟨os, hos, rfl⟩ := h
  refine ⟨fun t ht => ?_, foldlM_lines .empty hos⟩
  obtain ⟨o, ho, rfl⟩ : ∃ o ∈ os, o = some t := by simpa using ht
  obtain ⟨line, -, hline⟩ := exists_of_mapM hos ho
  exact readLine_nonneg hline

theorem calcMedian_rank {l : List Int} (h : 0 < l.length) :
    IsRank l (l.length / 2) (calcMedian l) := by
  unfold calcMedian
  split
  · cases h
  · exact isRank_insertionSort (by simp)
  · have hlt : l.length / 2 < (l.insertionSort (· ≤ ·)).length := by
      rw [List.length_insertionSort]
      omega
    apply isRank_insertionSort
    rw [List.getD_eq_getElem?_getD, List.getElem?_eq_getElem hlt, Option.getD_some]

/-- What is written for an entry is the bandwidth of its relay. -/
theorem Summarizes.isBandwidth {ts : List Triple} {m : MsmInfo} (h : Summarizes ts m) :
    IsBandwidth ts m.fp m.node.bw := by
  obtain ⟨o, ho, hu, -⟩ := h.used.occurs
  have hsums : m.msms.toList.take m.used =
      (List.range m.used).map fun o : ℕ => secondSum ts m.fp (m.first + o) := by
    apply List.ext_getElem (by simp; omega)
    intro i hi _
    have hi' : i < numMsmsInMsmInfo := by
      simp only [List.length_take, Vector.length_toList] at hi
      omega
    simp [h.sums i hi']
  refine ⟨m.first, m.used, h.first, h.used, ?_⟩
  unfold MsmInfo.node
  split
  · rfl
  · rw [← hsums]
    have hlen : (m.msms.toList.take m.used).length = m.used := by simp; omega
    have hrank := calcMedian_rank (l := m.msms.toList.take m.used) (by omega)
    rwa [hlen] at hrank

theorem v3bwGenerate_spec {input : Bytes} {ts : List Triple} (h : acceptedTriples input = .ok ts)
    (hfit : FitsLong ts) (rank : Bytes → ℕ) : ∃ nodes, v3bwGenerate rank input = .ok nodes ∧
      (nodes.map NodeLine.fp).Perm (ts.map Triple.fp).dedup ∧
      ∀ n ∈ nodes, IsBandwidth ts n.fp n.bw := by
  obtain ⟨hpos, hread⟩ := acceptedTriples_ok h
  have hinTurn := hfit.inTurn fun t ht => (hpos t ht).2
  obtain ⟨ht, hfold, htab⟩ := ((tabulates_foldlM hpos).resolve_right fun hno => hno.1 hinTurn).2
  refine ⟨_, by rw [v3bwGenerate, hread, hfold]; rfl, ?_, fun n hn => ?_⟩
  · have hfps : ((ranked rank MsmInfo.fp ht.entries).map MsmInfo.node).map NodeLine.fp =
        (ranked rank MsmInfo.fp ht.entries).map MsmInfo.fp := by
      rw [List.map_map]
      rfl
    rw [hfps]
    apply ((ranked_perm rank MsmInfo.fp ht.entries).map _).trans
    refine (List.perm_ext_iff_of_nodup ht.nodup (List.nodup_dedup _)).mpr fun fp => ?_
    rw [List.mem_dedup, List.mem_map, List.mem_map]
    constructor
    · rintro ⟨m, hm, rfl⟩
      obtain ⟨t, hmem, hfp, -⟩ := firstTs_mem (htab.entries m hm).first
      exact ⟨t, hmem, hfp⟩
    · rintro ⟨t, hmem, rfl⟩
      exact htab.all t hmem
  · obtain ⟨m, hm, rfl⟩ := List.mem_map.mp hn
    exact (htab.entries m (mem_ranked.mp hm)).isBandwidth

/-- Node lines with the same relays and bandwidths are the same. -/
theorem nodes_subset {ts : List Triple} {nodes nodes' : List NodeLine}
    (hfp : ∀ n ∈ nodes, n.fp ∈ nodes'.map NodeLine.fp) (hbw : ∀ n ∈ nodes, IsBandwidth ts n.fp n.bw)
    (hbw' : ∀ n ∈ nodes', IsBandwidth ts n.fp n.bw) : nodes ⊆ nodes' := by
  rintro ⟨fp, bw⟩ hn
  obtain ⟨⟨fp', bw'⟩, hn', heq⟩ := List.mem_map.mp (hfp _ hn)
  obtain rfl : fp' = fp := heq
  obtain rfl : bw' = bw := (hbw' _ hn').unique (hbw _ hn)
  exact hn'

/-- The bandwidth file equals its definition: one line for each relay with an accepted triple, with
the bandwidth that the triples define. The order of the triples does not matter, as long as the
first one of each relay has the same timestamp. -/
theorem bandwidth_file_spec {input : Bytes} {ts : List Triple} (h : acceptedTriples input = .ok ts)
    (hfit : FitsLong ts) (rank : Bytes → ℕ) : ∃ nodes, v3bwGenerate rank input = .ok nodes ∧
      (nodes.map NodeLine.fp).Perm (ts.map Triple.fp).dedup ∧
      (∀ n ∈ nodes, IsBandwidth ts n.fp n.bw) ∧
      ∀ input' ts' rank', acceptedTriples input' = .ok ts' → ts.Perm ts' →
        (∀ fp, firstTs ts fp = firstTs ts' fp) →
        ∃ nodes', v3bwGenerate rank' input' = .ok nodes' ∧ nodes.Perm nodes' := by
  obtain ⟨nodes, hok, hfps, hbw⟩ := v3bwGenerate_spec h hfit rank
  refine ⟨nodes, hok, hfps, hbw, fun input' ts' rank' h' hp hf => ?_⟩
  obtain ⟨nodes', hok', hfps', hbw'⟩ := v3bwGenerate_spec h' (hfit.perm hp hf) rank'
  refine ⟨nodes', hok', ?_⟩
  have hnd := (hfps.nodup_iff.mpr (List.nodup_dedup _)).of_map
  have hnd' := (hfps'.nodup_iff.mpr (List.nodup_dedup _)).of_map
  have hfp : ∀ fp, fp ∈ nodes.map NodeLine.fp ↔ fp ∈ nodes'.map NodeLine.fp := by
    intro fp
    rw [hfps.mem_iff, hfps'.mem_iff, List.mem_dedup, List.mem_dedup]
    exact (hp.map Triple.fp).mem_iff
  have hbwp : ∀ n ∈ nodes, IsBandwidth ts' n.fp n.bw := fun n hn => (hbw n hn).perm hp (hf n.fp)
  refine (List.perm_ext_iff_of_nodup hnd hnd').mpr fun n => ⟨fun hn => ?_, fun hn => ?_⟩
  · exact nodes_subset (fun n hn => (hfp n.fp).mp (List.mem_map_of_mem hn)) hbwp hbw' hn
  · exact nodes_subset (fun n hn => (hfp n.fp).mpr (List.mem_map_of_mem hn)) hbw' hbwp hn

/-- The line of a result of the relay whose fingerprint repeats `c`. -/
def exampleLine (c : UInt8) (values : String) : Bytes :=
  bytes "9.1 1 " ++ List.replicate 40 c ++ bytes " a;h:1 650 SPEEDTESTING " ++ bytes values

/-- One relay is seen for 25 seconds and one for a single second. -/
theorem exampleLines_bandwidth : ∃ nodes nodes',
    v3bwGenerate (fun _ => 0) (exampleLine 0x41 "5 100 1\n" ++ exampleLine 0x42 "7 70 1\n" ++
      exampleLine 0x41 "29 300 1\n") = .ok nodes ∧
    (nodes.map NodeLine.fp).Perm [List.replicate 40 0x42, List.replicate 40 0x41] ∧
    v3bwGenerate (fun fp => fp.length) (exampleLine 0x42 "7 70 1\n" ++
      exampleLine 0x41 "5 100 1\n" ++ exampleLine 0x41 "29 300 1\n") = .ok nodes' ∧
    nodes.Perm nodes' := by
  let a : Bytes := List.replicate 40 0x41
  let b : Bytes := List.replicate 40 0x42
  have hread : acceptedTriples (exampleLine 0x41 "5 100 1\n" ++ exampleLine 0x42 "7 70 1\n" ++
      exampleLine 0x41 "29 300 1\n") = .ok [⟨a, 5, 100⟩, ⟨b, 7, 70⟩, ⟨a, 29, 300⟩] := by
    decide +kernel
  have hfit : FitsLong [⟨a, 5, 100⟩, ⟨b, 7, 70⟩, ⟨a, 29, 300⟩] :=
    fitsLong_of_total (by decide +kernel) (by decide +kernel) (by decide +kernel)
  have hread' : acceptedTriples (exampleLine 0x42 "7 70 1\n" ++ exampleLine 0x41 "5 100 1\n" ++
      exampleLine 0x41 "29 300 1\n") = .ok [⟨b, 7, 70⟩, ⟨a, 5, 100⟩, ⟨a, 29, 300⟩] := by
    decide +kernel
  obtain ⟨nodes, hok, hfps, -, hperm⟩ := bandwidth_file_spec hread hfit fun _ => 0
  have hfirst : ∀ fp, firstTs [⟨a, 5, 100⟩, ⟨b, 7, 70⟩, ⟨a, 29, 300⟩] fp =
      firstTs [⟨b, 7, 70⟩, ⟨a, 5, 100⟩, ⟨a, 29, 300⟩] fp := by
    intro fp
    by_cases ha : a = fp
    · subst ha
      decide +kernel
    · simp [firstTs, List.find?_cons, ha]
  obtain ⟨nodes', hok', hnodes⟩ := hperm _ _ (fun fp => fp.length) hread' (.swap _ _ _) hfirst
  exact ⟨nodes, nodes', hok, hfps, hok', hnodes⟩

end Flashflow
