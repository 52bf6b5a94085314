import Flashflow.V3bw.Bandwidth

/-! When the arithmetic of `v3bw.c` stays within a `long`. -/
namespace Flashflow
open Outcome OrderStatistic Iteration

/-- What becomes of a line. Where `trim_newlines` leaves the line the text is empty when the program
goes on, and has no words. -/
def contribution (line : Bytes) : Option Triple :=
  match readLine line with
  | .ok o => o
  | .error _ => none

/-- The triples of all lines. -/
def seenTriples (input : Bytes) : List Triple := (getlines input).filterMap contribution

/-- `read_input_to_ht` when the program goes on behind a line that `trim_newlines` leaves. -/
def readToEnd (input : Bytes) : Except Abort MsmTable :=
  (getlines input).foldlM (fun ht line =>
    match contribution line with
    | some t => addTriple ht t
    | none => pure ht) .empty

/-- No addition overflows while the triples are aggregated: a relay that is seen again, not before
its first time, has a window that ends in range, and so does each of its sums. -/
structure FitsRead (ts : List Triple) : Prop where
  ends : ∀ pre t post first, ts = pre ++ t :: post → firstTs pre t.fp = some first →
    first ≤ t.ts → first + numMsmsInMsmInfo ≤ longMax
  sums : ∀ fp first, firstTs ts fp = some first → ∀ o < numMsmsInMsmInfo,
    secondSum ts fp (first + o) ≤ longMax

/-- Of each relay that is seen for long enough more than half of the seconds have a sum of which
eight times as much is in range. -/
def MediansFit (ts : List Triple) : Prop :=
  ∀ fp first used, firstTs ts fp = some first → Used ts fp first used → secsRequired ≤ used →
    used / 2 <
      ((List.range used).map fun o : ℕ => secondSum ts fp (first + o)).countP (· ≤ longMax / 8)

section Triples
variable {ts : List Triple} {t : Triple} {fp : Bytes} {first : Int}

theorem secondSum_of_none (h : firstTs ts fp = none) (sec : Int) : secondSum ts fp sec = 0 := by
  have hnone : ∀ u ∈ ts, u.fp ≠ fp := by simpa [firstTs] using h
  have hnil : ts.filter (fun u => u.fp = fp ∧ u.ts = sec) = [] := by
    apply List.filter_eq_nil_iff.mpr
    intro u hu
    simp [hnone u hu]
  rw [secondSum, hnil]
  rfl

theorem FitsRead.of_snoc (h : FitsRead (ts ++ [t])) (hbw : 0 ≤ t.bw) : FitsRead ts where
  ends pre u post first hts := h.ends pre u (post ++ [t]) first (by simp [hts])
  sums fp first hfirst o ho := by
    have hsum := h.sums fp first (firstTs_snoc_of_some hfirst t) o ho
    rw [secondSum_snoc] at hsum
    split at hsum <;> omega

theorem FitsRead.step (h : FitsRead (ts ++ [t])) : StepFits ts t where
  stop first hf hle := h.ends ts t [] first rfl hf hle
  sum first hf hle hlt := by
    have hsum := h.sums t.fp first (firstTs_snoc_of_some hf t) (t.ts - first).toNat (by omega)
    have hsec : first + ((t.ts - first).toNat : Int) = t.ts := by omega
    rwa [hsec, secondSum_snoc, if_pos ⟨rfl, rfl⟩] at hsum

theorem FitsRead.snoc (h : FitsRead ts) (hstep : StepFits ts t) (hbw : t.bw ≤ longMax) :
    FitsRead (ts ++ [t]) where
  ends pre u post first hts hf hle := by
    rcases List.eq_nil_or_concat post with rfl | ⟨post, v, rfl⟩
    · obtain ⟨rfl, hu⟩ := List.append_inj' hts rfl
      obtain rfl : t = u := by simpa using hu
      exact hstep.stop first hf hle
    · have hts' : ts ++ [t] = (pre ++ u :: post) ++ [v] := by simpa using hts
      exact h.ends pre u post first (List.append_inj' hts' rfl).1 hf hle
  sums fp first hf o ho := by
    rw [secondSum_snoc]
    cases hold : firstTs ts fp with
    | none =>
      -- the first triple of its relay is the whole sum
      rw [secondSum_of_none hold, Int.zero_add]
      split
      · exact hbw
      · decide
    | some first' =>
      obtain rfl : first' = first := by
        rw [firstTs_snoc_of_some hold] at hf
        exact Option.some.inj hf
      have hle := h.sums fp first' hold o ho
      split
      next hin =>
        obtain ⟨rfl, hts⟩ := hin
        rw [← hts]
        exact hstep.sum first' hold (by omega) (by omega)
      · omega

/-- The condition on the whole is the one on every step. -/
theorem fitsRead_iff (h : ∀ t ∈ ts, 0 ≤ t.bw ∧ t.bw ≤ longMax) : FitsInTurn ts ↔ FitsRead ts := by
  induction ts using List.reverseRecOn with
  | nil =>
    refine iff_of_true (fun pre t post hts => by simp at hts) ⟨fun pre t post first hts => ?_, ?_⟩
    · simp at hts
    · intro fp first hf
      simp [firstTs] at hf
  | append_singleton ts t ih =>
    obtain ⟨hnn, hle⟩ := h t (by simp)
    rw [fitsInTurn_snoc, ih fun u hu => h u (List.mem_append_left _ hu)]
    exact ⟨fun hfit => hfit.1.snoc hfit.2 hle, fun hfit => ⟨hfit.of_snoc hnn, hfit.step⟩⟩

end Triples

/-! The reader clamps its numbers. -/

theorem strtol_le (word : Bytes) : (strtol word).1 ≤ longMax := by
  have hzero : (0 : Int) ≤ longMax := by decide
  have hmin : longMin ≤ longMax := by decide
  simp only [strtol]
  split
  · exact hzero
  · exact max_le hmin (min_le_left _ _)

theorem asNonnegativeLong_le (word : Bytes) : asNonnegativeLong word ≤ longMax := by
  have hneg : (-1 : Int) ≤ longMax := by decide
  have hnum := strtol_le word
  unfold asNonnegativeLong
  split
  · exact hneg
  split
  next i rest heq =>
    rw [heq] at hnum
    split
    · exact hneg
    · exact hnum

theorem acceptWords_le {fp code kind ts bwdown : Bytes} {t : Triple}
    (h : acceptWords fp code kind ts bwdown = some t) : t.ts ≤ longMax ∧ t.bw ≤ longMax := by
  simp only [acceptWords, Option.ite_none_left_eq_some, Option.some.injEq] at h
  obtain ⟨-, -, -, -, -, rfl⟩ := h
  exact ⟨asNonnegativeLong_le ts, asNonnegativeLong_le bwdown⟩

theorem readLine_le {line : Bytes} {t : Triple} (h : readLine line = .ok (some t)) :
    t.ts ≤ longMax ∧ t.bw ≤ longMax := by
  simp only [readLine, bind_eq_ok] at h
  obtain ⟨line', -, h⟩ := h
  split at h
  · exact acceptWords_le (pure_eq_ok.mp h)
  · cases pure_eq_ok.mp h

/-! The triples of the input. -/

section Input
variable {lines : List Bytes} {input : Bytes} {ts : List Triple}

theorem contribution_eq_some {line : Bytes} {t : Triple} :
    contribution line = some t ↔ readLine line = .ok (some t) := by
  unfold contribution
  cases readLine line with
  | ok o => simp
  | error e => simp

theorem map_contribution {os : List (Option Triple)} (h : lines.mapM readLine = .ok os) :
    lines.map contribution = os := by
  induction lines generalizing os with
  | nil => exact pure_eq_ok.mp h
  | cons line lines ih =>
    simp only [List.mapM_cons, bind_eq_ok, pure_eq_ok] at h
    obtain ⟨o, ho, os', hos, rfl⟩ := h
    have hline : contribution line = o := by simp [contribution, ho]
    rw [List.map_cons, hline, ih hos]

theorem seenTriples_bounds {t : Triple} (h : t ∈ seenTriples input) :
    (0 ≤ t.ts ∧ 0 ≤ t.bw) ∧ t.ts ≤ longMax ∧ t.bw ≤ longMax := by
  obtain ⟨line, -, hcon⟩ := List.mem_filterMap.mp h
  have hline := contribution_eq_some.mp hcon
  exact ⟨readLine_nonneg hline, readLine_le hline⟩

theorem seenTriples_of_accepted (h : acceptedTriples input = .ok ts) : seenTriples input = ts := by
  simp only [acceptedTriples, readLines, bind_eq_ok, pure_eq_ok] at h
  obtain ⟨os, hos, rfl⟩ := h
  rw [seenTriples, ← map_contribution hos, List.filterMap_map]
  rfl

theorem readToEnd_eq (input : Bytes) :
    readToEnd input = (seenTriples input).foldlM addTriple .empty := by
  rw [readToEnd, seenTriples, List.foldlM_filterMap]
  congr 1
  funext ht line
  cases contribution line <;> rfl

/-- Where the reader gets to the end, it has read what there is. -/
theorem readToEnd_of_ok {ht : MsmTable} (h : readInputToHt input = .ok ht) :
    readToEnd input = .ok ht := by
  unfold readInputToHt at h
  unfold readToEnd
  generalize getlines input = lines, MsmTable.empty = start at h ⊢
  induction lines generalizing start with
  | nil => exact h
  | cons line lines ih =>
    simp only [List.foldlM_cons, bind_eq_ok] at h ⊢
    obtain ⟨ht', ⟨o, hline, hstep⟩, hrest⟩ := h
    have hcon : contribution line = o := by simp [contribution, hline]
    refine ⟨ht', ?_, ih _ hrest⟩
    rw [hcon]
    cases o with
    | none => exact hstep
    | some t => exact hstep

/-- Reading to the end overflows, or it fills the table. -/
theorem readToEnd_cases (input : Bytes) :
    (FitsRead (seenTriples input) ∧
      ∃ ht, readToEnd input = .ok ht ∧ Tabulates (seenTriples input) ht) ∨
    (¬ FitsRead (seenTriples input) ∧ readToEnd input = .error .signedOverflow) := by
  have hbounds : ∀ t ∈ seenTriples input, (0 ≤ t.ts ∧ 0 ≤ t.bw) ∧ t.ts ≤ longMax ∧ t.bw ≤ longMax :=
    fun t => seenTriples_bounds
  rw [readToEnd_eq, ← fitsRead_iff fun t ht => ⟨(hbounds t ht).1.2, (hbounds t ht).2.2⟩]
  exact tabulates_foldlM fun t ht => (hbounds t ht).1

theorem tabulates_of_ok {ht : MsmTable} (h : readInputToHt input = .ok ht) :
    Tabulates (seenTriples input) ht := by
  have hread := readToEnd_of_ok h
  rcases readToEnd_cases input with ⟨-, ht', hok, htab⟩ | ⟨-, herr⟩
  · obtain rfl : ht' = ht := Except.ok.inj (hok.symm.trans hread)
    exact htab
  · rw [herr] at hread
    cases hread

end Input

/-! The report. -/

section Report
variable {ts : List Triple} {m : MsmInfo} {ht : MsmTable}

theorem longMul_eight {a : Int} (h : 0 ≤ a) :
    longMul a 8 = if a ≤ longMax / 8 then .ok (a * 8) else .error .signedOverflow := by
  have hmax : longMax = 9223372036854775807 := rfl
  have hmin : longMin ≤ a * 8 := by
    have hzero : longMin ≤ 0 := by decide
    omega
  unfold longMul
  by_cases hle : a ≤ longMax / 8
  · rw [if_pos hle, if_pos ⟨hmin, by omega⟩]
  · rw [if_neg hle, if_neg fun hin => hle (by omega)]

/-- The multiplication in the report of an entry is in range if and only if enough of its seconds
have small sums. -/
theorem Summarizes.logged_iff (h : Summarizes ts m) (hpos : ∀ t ∈ ts, 0 ≤ t.bw) :
    m.logged ≠ .error .signedOverflow ↔ (secsRequired ≤ m.used → m.used / 2 <
      ((List.range m.used).map fun o : ℕ => secondSum ts m.fp (m.first + o)).countP
        (· ≤ longMax / 8)) := by
  obtain ⟨first, used, hfirst, hused, hbw⟩ := h.isBandwidth
  obtain rfl : m.first = first := Option.some.inj (h.first.symm.trans hfirst)
  obtain rfl := h.used.unique hused
  have hlogged : ∀ {a : Int}, m.node.bw = a → 0 ≤ a →
      (m.logged ≠ .error .signedOverflow ↔ a ≤ longMax / 8) := by
    rintro a rfl hnn
    rw [MsmInfo.logged, longMul_eight hnn]
    by_cases hle : m.node.bw ≤ longMax / 8 <;>
      simp [hle, bind, Except.bind, pure, Except.pure]
  by_cases hshort : m.used < secsRequired
  · rw [if_pos hshort] at hbw
    rw [hlogged hbw (by decide)]
    exact iff_of_true (by decide) fun hle => absurd hshort (not_lt.mpr hle)
  · rw [if_neg hshort] at hbw
    have hnn : 0 ≤ m.node.bw := by
      refine hbw.ge_iff.mpr (le_of_eq_of_le (List.countP_eq_zero.mpr fun a ha => ?_)
        (Nat.zero_le _))
      obtain ⟨o, -, rfl⟩ := List.mem_map.mp ha
      simpa using secondSum_nonneg hpos m.fp (m.first + o)
    rw [hlogged rfl hnn, hbw.le_iff]
    exact ⟨fun hlt _ => hlt, fun himp => himp (not_lt.mp hshort)⟩

theorem Tabulates.logged_iff (h : Tabulates ts ht) (hpos : ∀ t ∈ ts, 0 ≤ t.bw) :
    (∀ m ∈ ht.entries, m.logged ≠ .error .signedOverflow) ↔ MediansFit ts := by
  constructor
  · intro hall fp first used hfirst hused hreq
    obtain ⟨t, hmem, rfl, -⟩ := firstTs_mem hfirst
    obtain ⟨m, hm, hfp⟩ := h.all t hmem
    have hsum := h.entries m hm
    rw [← hfp] at hfirst hused ⊢
    obtain rfl : m.first = first := Option.some.inj (hsum.first.symm.trans hfirst)
    obtain rfl := hsum.used.unique hused
    exact (hsum.logged_iff hpos).mp (hall m hm) hreq
  · intro hfit m hm
    have hsum := h.entries m hm
    exact (hsum.logged_iff hpos).mpr (hfit m.fp m.first m.used hsum.first hsum.used)

end Report

/-- The check of the window protects the index. -/
theorem msmInfoAdd_index (m : MsmInfo) (ts bw : Int) :
    msmInfoAdd m ts bw ≠ .error .outOfBounds := by
  have hadd : ∀ a b : Int, longAdd a b ≠ .error .outOfBounds := by
    intro a b
    unfold longAdd
    split
    · exact fun h => by cases h
    · exact fun h => by cases h
  intro h
  unfold msmInfoAdd at h
  split at h
  · cases h
  next hlt =>
    rcases bind_eq_error.mp h with h | ⟨stop, hstop, h⟩
    · exact hadd _ _ h
    obtain rfl : m.first + numMsmsInMsmInfo = stop := by
      unfold longAdd at hstop
      split at hstop
      · exact Except.ok.inj hstop
      · cases hstop
    split at h
    · cases h
    next hge =>
      rw [dif_pos (by omega)] at h
      rcases bind_eq_error.mp h with h | ⟨sum, -, h⟩
      · exact hadd _ _ h
      · cases h

/-- All arithmetic on `long`s in `_v3bw_generate` stays in range, if the program goes on behind a
line that `trim_newlines` leaves. -/
structure InRange (input : Bytes) : Prop where
  reading : readToEnd input ≠ .error .signedOverflow
  reporting : ∀ ht, readToEnd input = .ok ht → ∀ m ∈ ht.entries, m.logged ≠ .error .signedOverflow

/-- No index into `msms` is out of bounds, and no difference `ts - first` out of range. The sums and
the products are in range if and only if the triples of the input fit. -/
theorem aggregation_in_range_iff (input : Bytes) :
    (∀ m ts bw, msmInfoAdd m ts bw ≠ .error .outOfBounds) ∧
    (∀ t ∈ seenTriples input, ∀ first, firstTs (seenTriples input) t.fp = some first →
      first ≤ t.ts → 0 ≤ t.ts - first ∧ t.ts - first ≤ longMax) ∧
    (InRange input ↔ FitsRead (seenTriples input) ∧ MediansFit (seenTriples input)) ∧
    ∀ ht, readInputToHt input = .ok ht → readToEnd input = .ok ht := by
  refine ⟨msmInfoAdd_index, fun t hmem first hfirst hle => ?_, ?_, fun _ => readToEnd_of_ok⟩
  · obtain ⟨u, hu, -, rfl⟩ := firstTs_mem hfirst
    have hunn := (seenTriples_bounds hu).1.1
    have htle := (seenTriples_bounds hmem).2.1
    omega
  · have hpos : ∀ t ∈ seenTriples input, 0 ≤ t.bw := fun t hmem => (seenTriples_bounds hmem).1.2
    rcases readToEnd_cases input with ⟨hfit, ht, hok, htab⟩ | ⟨hno, herr⟩
    · have hlogged := htab.logged_iff hpos
      constructor
      · exact fun hin => ⟨hfit, hlogged.mp (hin.reporting ht hok)⟩
      · rintro ⟨-, hmed⟩
        refine ⟨fun h => ?_, fun ht' h => ?_⟩
        · rw [hok] at h
          cases h
        · obtain rfl : ht = ht' := Except.ok.inj (hok.symm.trans h)
          exact hlogged.mpr hmed
    · exact iff_of_false (fun hin => hin.reading herr) fun hin => hno hin.1

/-- Two lines of one relay with a time that is clamped: the end of the window is out of range. In
the second file a sum is; in the third the same sum, behind a blank line. -/
theorem aggregation_overflows :
    ¬ InRange (exampleLine 0x41 "99999999999999999999 5 1\n" ++
      exampleLine 0x41 "99999999999999999999 5 1\n") ∧
    ¬ InRange (exampleLine 0x41 "1 9223372036854775807 1\n" ++ exampleLine 0x41 "1 1 1\n") ∧
    ¬ InRange (bytes "\n" ++ exampleLine 0x41 "1 9223372036854775807 1\n" ++
      exampleLine 0x41 "1 1 1\n") := by
  have hends : readToEnd (exampleLine 0x41 "99999999999999999999 5 1\n" ++
      exampleLine 0x41 "99999999999999999999 5 1\n") = .error .signedOverflow := by
    rfl
  have hsums : readToEnd (exampleLine 0x41 "1 9223372036854775807 1\n" ++
      exampleLine 0x41 "1 1 1\n") = .error .signedOverflow := by
    rfl
  have hblank : readToEnd (bytes "\n" ++ exampleLine 0x41 "1 9223372036854775807 1\n" ++
      exampleLine 0x41 "1 1 1\n") = .error .signedOverflow := by
    rfl
  exact ⟨fun h => h.reading hends, fun h => h.reading hsums, fun h => h.reading hblank⟩

end Flashflow
