import Flashflow.V3bw.Overflow

/-! When no relay is published with less than the minimum. -/
namespace Flashflow
open Outcome OrderStatistic Iteration

/-- Of each relay that is seen for long enough at most half of the seconds have a sum below the
minimum; a second without a report has the sum 0. -/
def MostlyBusy (ts : List Triple) : Prop :=
  ∀ fp first used, firstTs ts fp = some first → Used ts fp first used → secsRequired ≤ used →
    ((List.range used).map fun o : ℕ => secondSum ts fp (first + o)).countP (· < minBw) ≤ used / 2

theorem IsBandwidth.minimum_iff {ts : List Triple} {fp : Bytes} {bw : Int}
    (h : IsBandwidth ts fp bw) : minBw ≤ bw ↔
      ∀ first used, firstTs ts fp = some first → Used ts fp first used → secsRequired ≤ used →
        ((List.range used).map fun o : ℕ => secondSum ts fp (first + o)).countP (· < minBw) ≤
          used / 2 := by
  obtain ⟨first, used, hfirst, hused, hbw⟩ := h
  by_cases hshort : used < secsRequired
  · rw [if_pos hshort] at hbw
    apply iff_of_true (le_of_eq hbw.symm)
    intro first' used' hfirst' hused' hreq
    obtain rfl : first = first' := Option.some.inj (hfirst.symm.trans hfirst')
    obtain rfl := hused.unique hused'
    exact absurd hshort (not_lt.mpr hreq)
  · rw [if_neg hshort] at hbw
    rw [hbw.ge_iff]
    constructor
    · intro hcount first' used' hfirst' hused' _
      obtain rfl : first = first' := Option.some.inj (hfirst.symm.trans hfirst')
      obtain rfl := hused.unique hused'
      exact hcount
    · intro hall
      exact hall first used hfirst hused (not_lt.mp hshort)

/-- A relay of the input, and no other, has an entry, which summarizes it. -/
theorem v3bwGenerate_ok {rank : Bytes → ℕ} {input : Bytes} {nodes : List NodeLine}
    (h : v3bwGenerate rank input = .ok nodes) :
    (∀ n ∈ nodes, IsBandwidth (seenTriples input) n.fp n.bw) ∧
      ∀ t ∈ seenTriples input, ∃ n ∈ nodes, n.fp = t.fp := by
  simp only [v3bwGenerate, bind_eq_ok, pure_eq_ok] at h
  obtain ⟨ht, hread, rfl⟩ := h
  have htab := tabulates_of_ok hread
  refine ⟨fun n hn => ?_, fun t hmem => ?_⟩
  · obtain ⟨m, hm, rfl⟩ := List.mem_map.mp hn
    exact (htab.entries m (mem_ranked.mp hm)).isBandwidth
  · obtain ⟨m, hm, hfp⟩ := htab.all t hmem
    exact ⟨m.node, List.mem_map_of_mem (mem_ranked.mpr hm), hfp⟩

/-- A relay that is reported in every other one of 25 seconds. -/
def everyOtherSecond : Bytes :=
  ["5", "7", "9", "11", "13", "15", "17", "19", "21", "23", "25", "27", "29"].flatMap
    fun ts => exampleLine 0x41 (ts ++ " 300 1\n")

end Flashflow
