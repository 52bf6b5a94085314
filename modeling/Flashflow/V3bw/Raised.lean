import Flashflow.V3bw.Filter
import Flashflow.V3bw.Minimum

/-! Two result files that differ in the bandwidth of one line: no relay is given less by the file
with the larger one. -/
namespace Flashflow
open Outcome OrderStatistic Arrays

/-- The same report, with at least the bandwidth. -/
structure Triple.Below (t t' : Triple) : Prop where
  fp : t.fp = t'.fp
  ts : t.ts = t'.ts
  bw : t.bw ≤ t'.bw

theorem Triple.Below.refl (t : Triple) : t.Below t := ⟨rfl, rfl, Int.le_refl _⟩

/-- The files have the same lines, but for one with a triple, which has a bandwidth at least as
large in the second file. -/
def Raised (input input' : Bytes) : Prop :=
  ∃ (pre post : List Bytes) (line line' : Bytes) (t : Triple) (bw : Int),
    getlines input = pre ++ line :: post ∧ getlines input' = pre ++ line' :: post ∧
    readLine line = .ok (some t) ∧ readLine line' = .ok (some { t with bw := bw }) ∧ t.bw ≤ bw

section Triples
variable {ts ts' : List Triple} {fp : Bytes} {first : Int} {used : ℕ}

theorem firstTs_below (h : List.Forall₂ Triple.Below ts ts') (fp : Bytes) :
    firstTs ts fp = firstTs ts' fp := by
  induction h with
  | nil => rfl
  | @cons t t' ts ts' htt _ ih =>
    unfold firstTs at ih ⊢
    rw [List.find?_cons, List.find?_cons, htt.fp]
    split
    · exact congrArg some htt.ts
    · exact ih

theorem secondSum_below (h : List.Forall₂ Triple.Below ts ts') (fp : Bytes) (sec : Int) :
    secondSum ts fp sec ≤ secondSum ts' fp sec := by
  induction h with
  | nil => exact Int.le_refl 0
  | @cons t t' ts ts' htt _ ih =>
    unfold secondSum at ih ⊢
    rw [List.filter_cons, List.filter_cons, htt.fp, htt.ts]
    split
    · rw [List.map_cons, List.map_cons, List.sum_cons, List.sum_cons]
      exact Int.add_le_add htt.bw ih
    · exact ih

/-- The span of a relay is a matter of its timestamps. -/
theorem Used.below (h : Used ts fp first used) (hle : List.Forall₂ Triple.Below ts ts') :
    Used ts' fp first used := by
  obtain ⟨⟨o, ho, hu, t, ht, hfp, hts⟩, hlargest⟩ := h
  obtain ⟨t', ht', hbelow⟩ := exists_right hle ht
  refine ⟨⟨o, ho, hu, t', ht', ?_, ?_⟩, ?_⟩
  · rw [← hbelow.fp, hfp]
  · rw [← hbelow.ts, hts]
  · intro o ho t' ht' hfp hts
    obtain ⟨t, ht, hbelow⟩ := exists_left hle ht'
    exact hlargest o ho t ht (hbelow.fp.trans hfp) (hbelow.ts.trans hts)

/-- The bandwidth of a relay is monotone in its triples. -/
theorem IsBandwidth.mono {bw bw' : Int} (h : IsBandwidth ts fp bw) (h' : IsBandwidth ts' fp bw')
    (hle : List.Forall₂ Triple.Below ts ts') : bw ≤ bw' := by
  obtain ⟨first, used, hfirst, hused, hbw⟩ := h
  obtain ⟨first', used', hfirst', hused', hbw'⟩ := h'
  obtain rfl : first = first' := by
    rw [firstTs_below hle, hfirst'] at hfirst
    exact (Option.some.inj hfirst).symm
  obtain rfl := (hused.below hle).unique hused'
  by_cases hshort : used < secsRequired
  · rw [if_pos hshort] at hbw hbw'
    exact le_of_eq (hbw.trans hbw'.symm)
  · rw [if_neg hshort] at hbw hbw'
    apply hbw.mono hbw'
    rw [List.forall₂_map_left_iff, List.forall₂_map_right_iff, List.forall₂_same]
    intro o _
    exact secondSum_below hle fp (first + o)

end Triples

/-! The files. -/

section Files
variable {input input' : Bytes} {nodes nodes' : List NodeLine}

theorem forall₂_below_refl (ts : List Triple) : List.Forall₂ Triple.Below ts ts :=
  List.forall₂_same.mpr fun t _ => .refl t

/-- The other lines are read in the same way. -/
theorem Raised.seenTriples (h : Raised input input') :
    List.Forall₂ Triple.Below (seenTriples input) (seenTriples input') := by
  obtain ⟨pre, post, line, line', t, bw, hlines, hlines', hline, hline', hle⟩ := h
  rw [Flashflow.seenTriples, Flashflow.seenTriples, hlines, hlines', List.filterMap_append,
    List.filterMap_append, List.filterMap_cons_some (contribution_eq_some.mpr hline),
    List.filterMap_cons_some (contribution_eq_some.mpr hline')]
  exact List.rel_append (forall₂_below_refl _) (.cons ⟨rfl, rfl, hle⟩ (forall₂_below_refl _))

/-- Another number in the place of the bandwidth. -/
theorem MsmLine.Valid.replace {l : MsmLine} (h : l.Valid) {bwdown : Bytes} (hspace : 0x20 ∉ bwdown)
    (hbw : Nonnegative bwdown) : { l with bwdown := bwdown }.Valid := by
  refine ⟨fun w hw => ?_, h.code, h.kind, h.length, h.hex, h.ts, hbw⟩
  have hfront : MsmLine.front { l with bwdown := bwdown } = l.front.dropLast ++ [bwdown] := rfl
  rw [hfront] at hw
  rcases List.mem_append.mp hw with hw | hw
  · exact h.no_space w (List.mem_of_mem_dropLast hw)
  · rwa [List.mem_singleton.mp hw]

/-- The word with the bandwidth of an accepted line is replaced by one with a value at least as
large. -/
theorem raised_of_bwdown {pre post : List Bytes} {line line' : Bytes} {l : MsmLine} {bwdown : Bytes}
    (hlines : getlines input = pre ++ line :: post) (h0 : 0 ∉ line)
    (hline : lineText line = l.text) (hl : l.Valid)
    (hlines' : getlines input' = pre ++ line' :: post) (h0' : 0 ∉ line')
    (hline' : lineText line' = { l with bwdown := bwdown }.text)
    (hspace : 0x20 ∉ bwdown) (hbw : Nonnegative bwdown)
    (hle : (strtol l.bwdown).1 ≤ (strtol bwdown).1) : Raised input input' := by
  have hread : ∀ {input : Bytes} {line : Bytes} {l : MsmLine}, line ∈ getlines input → 0 ∉ line →
      lineText line = l.text → l.Valid → readLine line = .ok (some l.triple) := by
    intro input line l hmem h0 hline hl
    have hblank : line ≠ [0x0A] := by
      rintro rfl
      simp [lineText, MsmLine.text, spaced, MsmLine.front] at hline
    have htrim := trimNewlines_getlines hmem hblank h0
    exact contribution_eq_some.mp ((contribution_iff htrim l.triple).mpr ⟨l, hline.symm, hl, rfl⟩)
  refine ⟨pre, post, line, line', l.triple, (strtol bwdown).1, hlines, hlines', ?_, ?_, hle⟩
  · exact hread (hlines ▸ List.mem_append_right _ List.mem_cons_self) h0 hline hl
  · exact hread (hlines' ▸ List.mem_append_right _ List.mem_cons_self) h0' hline'
      (hl.replace hspace hbw)

/-- More observed bandwidth never lowers a relay: if the bandwidth of one accepted line is raised
and neither file overflows, both files have a line for the same relays, and none is given less by
the second. -/
theorem raised_bandwidth {rank rank' : Bytes → ℕ} (h : Raised input input')
    (hok : v3bwGenerate rank input = .ok nodes) (hok' : v3bwGenerate rank' input' = .ok nodes') :
    (∀ fp, fp ∈ nodes.map NodeLine.fp ↔ fp ∈ nodes'.map NodeLine.fp) ∧
      ∀ n ∈ nodes, ∀ n' ∈ nodes', n.fp = n'.fp → n.bw ≤ n'.bw := by
  obtain ⟨hbw, hall⟩ := v3bwGenerate_ok hok
  obtain ⟨hbw', hall'⟩ := v3bwGenerate_ok hok'
  have hle := h.seenTriples
  constructor
  · intro fp
    rw [List.mem_map, List.mem_map]
    constructor
    · rintro ⟨n, hn, rfl⟩
      obtain ⟨first, used, hfirst, -⟩ := hbw n hn
      obtain ⟨t, ht, hfp, -⟩ := firstTs_mem hfirst
      obtain ⟨t', ht', hbelow⟩ := exists_right hle ht
      obtain ⟨n', hn', hfp'⟩ := hall' t' ht'
      exact ⟨n', hn', by rw [hfp', ← hbelow.fp, hfp]⟩
    · rintro ⟨n', hn', rfl⟩
      obtain ⟨first, used, hfirst, -⟩ := hbw' n' hn'
      obtain ⟨t', ht', hfp, -⟩ := firstTs_mem hfirst
      obtain ⟨t, ht, hbelow⟩ := exists_left hle ht'
      obtain ⟨n, hn, hfp'⟩ := hall t ht
      exact ⟨n, hn, by rw [hfp', hbelow.fp, hfp]⟩
  · intro n hn n' hn' hfp
    exact (hbw n hn).mono (hfp ▸ hbw' n' hn') hle

end Files

/-- The first of two lines of a relay, 24 seconds apart, says 900 instead of 100. -/
theorem raised_bandwidth_two : ∃ nodes nodes',
    v3bwGenerate (fun _ => 0) (exampleLine 0x41 "5 100 1\n" ++ exampleLine 0x41 "29 300 1\n") =
      .ok nodes ∧
    v3bwGenerate (fun _ => 0) (exampleLine 0x41 "5 900 1\n" ++ exampleLine 0x41 "29 300 1\n") =
      .ok nodes' ∧ ∀ n ∈ nodes, ∀ n' ∈ nodes', n.fp = n'.fp → n.bw ≤ n'.bw := by
  let l : MsmLine := ⟨bytes "9.1", bytes "1", List.replicate 40 0x41, bytes "a;h:1", bytes "650",
    bytes "SPEEDTESTING", bytes "5", bytes "100", bytes "1"⟩
  have hts : Nonnegative (bytes "5") := by constructor <;> decide +kernel
  have hbw : Nonnegative (bytes "100") := by constructor <;> decide +kernel
  have hbw' : Nonnegative (bytes "900") := by constructor <;> decide +kernel
  have hl : l.Valid := by
    constructor
    · decide +kernel
    · decide +kernel
    · decide +kernel
    · decide +kernel
    · decide +kernel
    · exact hts
    · exact hbw
  have hraised : Raised (exampleLine 0x41 "5 100 1\n" ++ exampleLine 0x41 "29 300 1\n")
      (exampleLine 0x41 "5 900 1\n" ++ exampleLine 0x41 "29 300 1\n") :=
    @raised_of_bwdown _ _ [] _ _ _ l (bytes "900") rfl (by decide +kernel) (by decide +kernel) hl
      rfl (by decide +kernel) (by decide +kernel) (by decide +kernel) hbw' (by decide +kernel)
  exact ⟨_, _, rfl, rfl, (@raised_bandwidth _ _ _ _ (fun _ => 0) (fun _ => 0) hraised rfl rfl).2⟩

end Flashflow
