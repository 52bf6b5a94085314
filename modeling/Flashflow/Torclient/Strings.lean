import Flashflow.Torclient.ClientTable

/-! Which strings are in use while a client file is read. -/
namespace Flashflow
open Outcome

/-- The strings of an entry. -/
def Entry.ids (e : Entry) : List ℕ := [e.cls.id, e.host.id, e.port.id, e.pw.id]

namespace ClientTable

/-- The strings of the entries in use. -/
def stored (t : ClientTable) : List ℕ := t.entries.flatMap Entry.ids

/-- The strings in use are those of the entries, each of one entry. -/
structure Owned (t : ClientTable) : Prop where
  nodup : t.stored.Nodup
  live : t.strings.live = t.stored.toFinset

variable {t t' : ClientTable} {lines : List Bytes} {line : Bytes}

theorem owned_start (metas : Vector Entry maxNumCtrlSocks) : (start metas).Owned :=
  ⟨List.nodup_nil, rfl⟩

theorem Owned.lt (h : t.Owned) {i : ℕ} (hi : i ∈ t.stored) : i < t.strings.next := by
  refine t.strings.live_lt i ?_
  rw [h.live]
  exact List.mem_toFinset.mpr hi

theorem stored_push (t : ClientTable) (h : t.count < maxNumCtrlSocks) (a b c d : Bytes) :
    (t.push h a b c d).stored = t.stored ++ [t.strings.next + 1, t.strings.next + 2,
      t.strings.next + 3, t.strings.next + 4] := by
  rw [stored, entries_push, List.flatMap_append, stored]
  rfl

/-- A client line duplicates its four strings, and its working copy is freed. -/
theorem Owned.push (hown : t.Owned) (h : t.count < maxNumCtrlSocks) (a b c d : Bytes) :
    (t.push h a b c d).Owned := by
  have hlt : ∀ i ∈ t.stored, i < t.strings.next := fun i => hown.lt
  constructor
  · rw [stored_push]
    refine List.nodup_append.mpr ⟨hown.nodup, by simp, fun i hi j hj => ?_⟩
    have hi' := hlt i hi
    simp only [List.mem_cons, List.not_mem_nil, or_false] at hj
    omega
  · ext i
    have hmem : i ∈ t.strings.live ↔ i ∈ t.stored := by rw [hown.live, List.mem_toFinset]
    have hpush : i ∈ (t.push h a b c d).strings.live ↔ i ≠ t.strings.next ∧
        (i = t.strings.next + 4 ∨ i = t.strings.next + 3 ∨ i = t.strings.next + 2 ∨
          i = t.strings.next + 1 ∨ i = t.strings.next ∨ i ∈ t.stored) := by
      simp only [ClientTable.push, LineVars.four, Ledger.mem_drop, Ledger.mem_acquire,
        Ledger.acquire_next, hmem]
    rw [hpush, List.mem_toFinset, stored_push]
    simp only [List.mem_append, List.mem_cons, List.not_mem_nil, or_false]
    by_cases hs : i ∈ t.stored
    · have hne := (hlt i hs).ne
      simp [hs, hne]
    · simp only [hs, or_false, false_or]
      omega

/-- A rejected line is not undone. -/
theorem not_owned_of_rejected {h : t.count < maxNumCtrlSocks} (hown : t.Owned)
    (hc : line.head? ≠ some 0x23) (hlen : (lineTokens line).length ≠ 4)
    (hread : t.readLine h line = .ok t') : ¬ t'.Owned := by
  rcases readLine_cases hread with ⟨hc', -⟩ | ⟨hclient, -⟩ | ⟨-, -, strings, rfl, hlive⟩
  · exact absurd hc' hc
  · exact absurd hclient.2 hlen
  · intro hown'
    have hsame : strings.live = t.strings.live := hown'.live.trans hown.live.symm
    rw [hsame] at hlive
    exact Ledger.fresh (Nat.le_refl _) hlive

theorem readLines_append (l m : List Bytes) (t : ClientTable) :
    readLines (l ++ m) t = readLines l t >>= readLines m := by
  induction l generalizing t with
  | nil => rfl
  | cons line l ih =>
    rw [List.cons_append, readLines, readLines]
    split
    · rw [bind_assoc]
      exact congrArg _ (funext ih)
    next hfull =>
      have hstop : readLines m t = pure t := by
        cases m with
        | nil => rfl
        | cons line m => rw [readLines, dif_neg hfull]
      rw [pure_bind, hstop]

theorem readLines_snoc {h : t.count < maxNumCtrlSocks} (hread : readLines lines t' = .ok t)
    (line : Bytes) : readLines (lines ++ [line]) t' = t.readLine h line := by
  have hsingle : readLines [line] t = t.readLine h line := by
    rw [readLines, dif_pos h]
    exact bind_pure _
  rw [readLines_append, hread]
  exact hsingle

/-- As many entries are in use as client lines have been read, up to the size of the array. -/
theorem count_readLines (hread : readLines lines t = .ok t') :
    t'.count = min maxNumCtrlSocks (t.count + lines.countP fun line => IsClient line) := by
  induction lines generalizing t with
  | nil =>
    obtain rfl : t = t' := pure_eq_ok.mp hread
    have hle := t.count_le
    simp only [List.countP_nil]
    omega
  | cons line lines ih =>
    have hle := t.count_le
    rw [readLines] at hread
    split at hread
    next h =>
      obtain ⟨t₁, hline, hrest⟩ := bind_eq_ok.mp hread
      have hcount : t₁.count = t.count + if IsClient line then 1 else 0 := by
        rcases readLine_cases hline with ⟨hc, rfl⟩ | ⟨hclient, a, b, c, d, rfl⟩ |
          ⟨-, hlen, strings, rfl, -⟩
        · rw [if_neg fun hclient => hclient.1 hc, Nat.add_zero]
        · rw [if_pos hclient]
          rfl
        · rw [if_neg fun hclient => hlen hclient.2, Nat.add_zero]
      rw [ih hrest, hcount, List.countP_cons]
      by_cases hclient : IsClient line
      · simp only [hclient, if_true, decide_true]
        omega
      · simp only [hclient, if_false, decide_false, Bool.false_eq_true]
        omega
    next h =>
      obtain rfl : t = t' := pure_eq_ok.mp hread
      omega

end ClientTable

open ClientTable

/-- After each line of the file that has been processed, the strings in use are those of the
entries. -/
def StringsExact (metas : Vector Entry maxNumCtrlSocks) (lines : List Bytes) : Prop :=
  ∀ k, ∃ t, readLines (lines.take k) (start metas) = .ok t ∧ t.Owned

/-- As long as there is room for clients, there are only comments and lines with four tokens. -/
def Tidy (lines : List Bytes) : Prop := ∀ pre line post, lines = pre ++ line :: post →
  (pre.countP fun line => IsClient line) < maxNumCtrlSocks →
    line.head? = some 0x23 ∨ (lineTokens line).length = 4

section Exact
variable {metas : Vector Entry maxNumCtrlSocks} {lines : List Bytes}

theorem StringsExact.of_append {l m : List Bytes} (h : StringsExact metas (l ++ m)) :
    ∃ t, readLines l (start metas) = .ok t ∧ t.Owned := by
  have hl := h l.length
  rwa [List.take_left] at hl

theorem StringsExact.tidy (h : StringsExact metas lines) : Tidy lines := by
  intro pre line post hlines hcount
  subst hlines
  obtain ⟨t, hpre, hown⟩ := h.of_append
  rw [← List.singleton_append, ← List.append_assoc] at h
  obtain ⟨t', hsnoc, hown'⟩ := h.of_append
  have hroom : t.count < maxNumCtrlSocks := by
    rw [count_readLines hpre]
    exact lt_of_le_of_lt (min_le_right _ _) (by simpa [start] using hcount)
  rw [readLines_snoc (h := hroom) hpre] at hsnoc
  by_contra hbad
  obtain ⟨hc, hlen⟩ := not_or.mp hbad
  exact not_owned_of_rejected hown hc hlen hsnoc hown'

/-- In a tidy file every line is read, and leaves behind what its entry holds. -/
theorem Tidy.owned (h : Tidy lines) : ∃ t, readLines lines (start metas) = .ok t ∧ t.Owned := by
  induction lines using List.reverseRecOn with
  | nil => exact ⟨start metas, rfl, owned_start metas⟩
  | append_singleton lines line ih =>
    obtain ⟨t, hread, hown⟩ := ih fun pre line' post hlines =>
      h pre line' (post ++ [line]) (by simp [hlines])
    by_cases hroom : t.count < maxNumCtrlSocks
    · have hcount : (lines.countP fun line => IsClient line) < maxNumCtrlSocks := by
        have hcount := count_readLines hread
        simp only [start] at hcount
        omega
      rw [readLines_snoc (h := hroom) hread]
      rcases h lines line [] rfl hcount with hc | hlen
      · exact ⟨t, readLine_comment hc, hown⟩
      · by_cases hc : line.head? = some 0x23
        · exact ⟨t, readLine_comment hc, hown⟩
        obtain ⟨a, b, c, d, htoks⟩ := List.length_eq_four.mp hlen
        exact ⟨_, readLine_four hc htoks, hown.push hroom a b c d⟩
    · refine ⟨t, ?_, hown⟩
      have hstop : readLines [line] t = pure t := by rw [readLines, dif_neg hroom]
      rw [readLines_append, hread]
      exact hstop

/-- The strings are exact in the files without other lines than comments and those of four tokens,
up to where the array is full, and in no others. -/
theorem strings_exact_iff (metas : Vector Entry maxNumCtrlSocks) (content : Bytes) :
    StringsExact metas (getlines content) ↔ Tidy (getlines content) := by
  refine ⟨StringsExact.tidy, fun h k => Tidy.owned fun pre line post hlines => ?_⟩
  have hall := (getlines content).take_append_drop k
  rw [hlines, List.append_assoc, List.cons_append] at hall
  exact h pre line _ hall.symm

/-- A line with one token is never freed, and a line with six tokens frees its strings twice. -/
theorem strings_not_exact :
    ¬ StringsExact (Vector.replicate maxNumCtrlSocks unusedEntry) (getlines (bytes "a\n")) ∧
    ClientTable.read (Vector.replicate maxNumCtrlSocks unusedEntry) (bytes "a b c d e f\n") =
      .error .doubleFree := by
  have hpos : 0 < maxNumCtrlSocks := by decide
  have hroom : ∀ metas, (start metas).count < maxNumCtrlSocks := fun _ => hpos
  constructor
  · intro h
    obtain ⟨t, hread, hown⟩ := h 1
    have hlines : (getlines (bytes "a\n")).take 1 = [] ++ [bytes "a\n"] := by decide +kernel
    rw [hlines, readLines_snoc (h := hroom _) rfl] at hread
    exact not_owned_of_rejected (owned_start _) (by decide +kernel) (by decide +kernel) hread hown
  · have hlines : getlines (bytes "a b c d e f\n") = [] ++ [bytes "a b c d e f\n"] := by
      decide +kernel
    rw [ClientTable.read, hlines, readLines_snoc (h := hroom _) rfl]
    have hc : (bytes "a b c d e f\n").head? ≠ some 0x23 := by decide +kernel
    have hsix : (lineTokens (bytes "a b c d e f\n")).length = 6 := by decide +kernel
    have hlen : (lineTokens (bytes "a b c d e f\n")).length ≠ 4 := by decide +kernel
    rcases readLine_rejected (h := hroom _) hc hlen with ⟨-, herr⟩ | ⟨hfive, -⟩
    · exact herr
    · rw [hsix] at hfive
      exact absurd hfive (by decide)

end Exact

end Flashflow
