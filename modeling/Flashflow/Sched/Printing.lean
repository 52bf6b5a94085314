import Flashflow.Sched.Line

/-! Printing a measurement as a line of a schedule file: `new_from_string` reads it back, and
accepts no line whose measurement breaks the rules. -/
namespace Flashflow.Sched
open Outcome Tokens

/-- The rules that a line is checked for. -/
structure Measurement.Ruled (m : Measurement) : Prop where
  id : m.id ≠ 0
  not_self : m.id ∉ m.depends
  depends : 0 ∉ m.depends
  bg : ∀ h ∈ m.hosts, h.cls = "bg".toList → h.conns = 1 ∧ h.bw = 125000
  one_bg : (m.hosts.filter fun h => h.cls = "bg".toList).length ≤ 1

/-- A new measurement that keeps the rules, with names that a line can hold. -/
structure Measurement.Printable (m : Measurement) : Prop extends m.Ruled where
  fp : IsName m.fp
  hosts : m.hosts ≠ []
  classes : ∀ h ∈ m.hosts, IsName h.cls
  waiting : m.state = .waiting
  no_finished : m.finishedDepends = []
  no_failsafe : m.failsafeStop = 0

namespace Measurement

def parts (m : Measurement) : LineParts where
  id := m.id.toNat
  fp := m.fp
  dur := m.dur.toNat
  classes := m.hosts.map Host.cls
  bws := m.hosts.map fun h => h.bw.toNat
  conns := m.hosts.map fun h => h.conns.toNat

/-- The last word: what the measurement waits for, or `0`. -/
def dependsText (m : Measurement) : Text :=
  if m.depends = [] then "0".toList else joinWith ',' (m.depends.map fun d => numText d.toNat)

/-- `id fp dur classes bws conns depends` -/
def words (m : Measurement) : List Text := m.parts.words ++ [m.dependsText]

end Measurement

section Print
variable {m : Measurement} {s : Text}

theorem map_ofNat_toNat (ns : List UInt32) : (ns.map UInt32.toNat).map UInt32.ofNat = ns := by
  simp [Function.comp_def]

theorem Measurement.Printable.readable (h : m.Printable) : m.parts.Readable := by
  have hlt : ∀ n : UInt32, n.toNat < 2 ^ 32 := fun n => n.toNat_lt
  constructor
  · exact hlt m.id
  · exact h.fp.toIsWord
  · exact hlt m.dur
  · exact List.forall_mem_map.mpr h.classes
  · simpa [parts] using h.hosts
  · exact List.forall_mem_map.mpr fun e _ => hlt e.bw
  · simpa [parts] using h.hosts
  · exact List.forall_mem_map.mpr fun e _ => hlt e.conns
  · simpa [parts] using h.hosts

theorem Measurement.dependsText_spec (m : Measurement) :
    DepText m.dependsText (m.depends.map UInt32.toNat) ∧ m.dependsText ≠ [] := by
  unfold dependsText
  split
  next hnil =>
    rw [hnil]
    exact ⟨.first, by simp⟩
  next hne =>
    have hmap : m.depends.map (fun d => numText d.toNat) =
        (m.depends.map UInt32.toNat).map numText := by simp
    rw [hmap]
    refine ⟨.ids _, joinWith_ne_nil ',' (fun t ht => (numTexts_isName _ t ht).ne_nil) ?_⟩
    simpa using hne

/-- What is read of the words of a measurement passes the checks, as the measurement it was. -/
theorem Measurement.Printable.finish (h : m.Printable) :
    (m.parts.read 7 ((m.depends.map UInt32.toNat).map UInt32.ofNat)).finish = .ok m := by
  have hhosts : (m.parts.read 7 m.depends).hosts = m.hosts := by
    simp [LineWords.hosts, LineParts.read, parts, List.zip_map', Function.comp_def]
  have hid : UInt32.ofNat m.id.toNat = m.id := UInt32.ofNat_toNat
  rw [map_ofNat_toNat, LineWords.finish_iff, LineWords.measurement, hhosts]
  refine ⟨?_, ?_, by simp [LineParts.read, parts], h.bg, h.one_bg, ?_⟩
  · simpa [LineParts.read, parts] using h.id
  · simpa [LineParts.read, parts] using h.not_self
  · obtain ⟨id, fp, dur, state, hosts, depends, finished, failsafe⟩ := m
    obtain rfl := h.waiting
    obtain rfl := h.no_finished
    obtain rfl := h.no_failsafe
    simp [LineParts.read, parts]

theorem Measurement.Printable.newFromString (h : m.Printable)
    (hs : Separated (· == ' ') m.words s) : Sched.newFromString s = .ok (some m) := by
  obtain ⟨hdep, hne⟩ := m.dependsText_spec
  have hdeps : ∀ d ∈ m.depends.map UInt32.toNat, 0 < d ∧ d < 2 ^ 32 := by
    refine List.forall_mem_map.mpr fun d hd => ⟨Nat.pos_of_ne_zero fun h0 => ?_, d.toNat_lt⟩
    obtain rfl : d = 0 := UInt32.toNat_inj.mp h0
    exact h.depends hd
  rw [h.readable.newFromString_separated hdep hne hdeps hs, h.finish]
  rfl

end Print

/-! Reading any line. -/

section Read
variable {m : Measurement} {s : Text} {w w' : LineWords}

/-- Only the seventh word names measurements to wait for, and no zeros are kept of it. -/
theorem LineWords.word_depends {sub : Text} (h : w.word sub = .ok w') (hw : 0 ∉ w.depends) :
    0 ∉ w'.depends := by
  unfold LineWords.word at h
  dsimp only at h
  split at h
  · obtain rfl := Except.ok.inj h
    exact hw
  split at h <;> simp only [bind_eq_ok, pure_eq_ok] at h
  · obtain ⟨id, -, v, rfl, rfl⟩ := h
    exact hw
  · obtain ⟨v, rfl, rfl⟩ := h
    exact hw
  · obtain ⟨dur, -, v, rfl, rfl⟩ := h
    exact hw
  · obtain ⟨v, rfl, rfl⟩ := h
    exact hw
  · obtain ⟨bws, -, v, rfl, rfl⟩ := h
    exact hw
  · obtain ⟨conns, -, v, rfl, rfl⟩ := h
    exact hw
  · obtain ⟨ids, -, v, rfl, rfl⟩ := h
    simp
  · obtain ⟨v, hv, -⟩ := h
    cases hv

theorem foldlM_word_depends {ts : List Text} (h : ts.foldlM LineWords.word w = .ok w')
    (hw : 0 ∉ w.depends) : 0 ∉ w'.depends := by
  induction ts generalizing w with
  | nil =>
    obtain rfl : w = w' := pure_eq_ok.mp h
    exact hw
  | cons t ts ih =>
    rw [List.foldlM_cons, bind_eq_ok] at h
    obtain ⟨v, hv, hrest⟩ := h
    exact ih hrest (LineWords.word_depends hv hw)

theorem newFromString_ruled (h : newFromString s = .ok (some m)) : m.Ruled := by
  unfold newFromString at h
  dsimp only at h
  split at h
  · cases h
  simp only [bind_eq_ok, pure_eq_ok, Option.some.injEq] at h
  obtain ⟨w, hfold, m', hfinish, rfl⟩ := h
  obtain ⟨hid, hself, -, hbg, hone, rfl⟩ := LineWords.finish_iff.mp hfinish
  exact ⟨hid, hself, foldlM_word_depends hfold List.not_mem_nil, hbg, hone⟩

/-- Only the second word is kept as the name of the relay. -/
theorem LineWords.word_fp {sub : Text} (h : w.word sub = .ok w') :
    w'.fp = w.fp ∨ w'.fp = trim sub := by
  unfold LineWords.word at h
  dsimp only at h
  split at h
  · obtain rfl := Except.ok.inj h
    exact .inl rfl
  split at h <;> simp only [bind_eq_ok, pure_eq_ok] at h
  · obtain ⟨id, -, v, rfl, rfl⟩ := h
    exact .inl rfl
  · obtain ⟨v, rfl, rfl⟩ := h
    exact .inr rfl
  · obtain ⟨dur, -, v, rfl, rfl⟩ := h
    exact .inl rfl
  · obtain ⟨v, rfl, rfl⟩ := h
    exact .inl rfl
  · obtain ⟨bws, -, v, rfl, rfl⟩ := h
    exact .inl rfl
  · obtain ⟨conns, -, v, rfl, rfl⟩ := h
    exact .inl rfl
  · obtain ⟨ids, -, v, rfl, rfl⟩ := h
    exact .inl rfl
  · obtain ⟨v, hv, -⟩ := h
    cases hv

theorem foldlM_word_fp {ts : List Text} (h : ts.foldlM LineWords.word w = .ok w') :
    w'.fp = w.fp ∨ ∃ t ∈ ts, w'.fp = trim t := by
  induction ts generalizing w with
  | nil =>
    obtain rfl : w = w' := pure_eq_ok.mp h
    exact .inl rfl
  | cons t ts ih =>
    rw [List.foldlM_cons, bind_eq_ok] at h
    obtain ⟨v, hv, hrest⟩ := h
    rcases ih hrest with hfp | ⟨t', ht', hfp⟩
    · rw [hfp]
      exact (LineWords.word_fp hv).imp_right fun hv => ⟨t, List.mem_cons_self, hv⟩
    · exact .inr ⟨t', List.mem_cons_of_mem t ht', hfp⟩

theorem trim_subset (s : Text) : trim s ⊆ s := fun c hc => by
  have hback := List.dropWhile_subset _ (List.mem_reverse.mp hc)
  exact List.dropWhile_subset _ (List.mem_reverse.mp hback)

/-- The name of the relay is a word of the line. -/
theorem newFromString_fp (h : newFromString s = .ok (some m)) : ∀ c ∈ m.fp, c ∈ s ∧ c ≠ ' ' := by
  unfold newFromString at h
  dsimp only at h
  split at h
  · cases h
  simp only [bind_eq_ok, pure_eq_ok, Option.some.injEq] at h
  obtain ⟨w, hfold, m', hfinish, rfl⟩ := h
  obtain ⟨-, -, -, -, -, rfl⟩ := LineWords.finish_iff.mp hfinish
  intro c (hc : c ∈ w.fp)
  have hfp : w.fp = [] ∨ ∃ t ∈ (trim s).splitOn ' ', w.fp = trim t := foldlM_word_fp hfold
  rcases hfp with hfp | ⟨t, ht, hfp⟩
  · exact absurd (hfp ▸ hc) List.not_mem_nil
  · have hct : c ∈ t := trim_subset t (hfp ▸ hc)
    have htoken : t ∈ tokens (· == ' ') (trim s) :=
      List.mem_filter.mpr ⟨ht, by simpa using List.ne_nil_of_mem hct⟩
    obtain ⟨-, hclean, hin⟩ := mem_tokens htoken
    exact ⟨trim_subset s (hin.subset hct), by simpa using hclean c hct⟩

end Read

/-- A line is read back as the measurement it was printed from, however its words are spaced, and
every line that is accepted has a measurement that keeps the rules. -/
theorem line_parser_exact :
    (∀ (m : Measurement) (s : Text), m.Printable → Separated (· == ' ') m.words s →
      newFromString s = .ok (some m)) ∧
    ∀ (s : Text) (m : Measurement), newFromString s = .ok (some m) → m.Ruled :=
  ⟨fun _ _ hm hs => hm.newFromString hs, fun _ _ => newFromString_ruled⟩

/-- A measurement with a background host, which waits for two others. -/
def bgMeasurement : Measurement :=
  ⟨3, "fp".toList, 10, .waiting, [⟨"bg".toList, 125000, 1⟩, ⟨"c1".toList, 7, 20⟩], [1, 2], [], 0⟩

theorem line_parser_bg :
    newFromString "  3 fp   10 bg,c1  125000,7 1,20 1,2 ".toList = .ok (some bgMeasurement) ∧
      bgMeasurement.Ruled := by
  have hprint : bgMeasurement.Printable :=
    ⟨⟨by decide, by decide, by decide, by decide, by decide⟩, by decide, by decide, by decide, rfl,
      rfl, rfl⟩
  have hread := line_parser_exact.1 bgMeasurement "  3 fp   10 bg,c1  125000,7 1,20 1,2 ".toList
    hprint (separated_iff.mpr (by decide +kernel))
  exact ⟨hread, line_parser_exact.2 _ _ hread⟩

end Flashflow.Sched
