import Flashflow.V3bw.Lines
import Flashflow.V3bw.Overflow

/-! The lines that `read_input_to_ht` ignores, with the variables of the body of its loop. -/
namespace Flashflow
open Outcome

/-- The variables of the body that are declared without a value. -/
inductive Var where
  | ts
  | bwdown
  deriving DecidableEq

/-- The variables of the body. What has not been assigned has the value that is in its place. -/
structure Locals where
  fp : Option Bytes
  ts : Int
  bwdown : Int
  assigned : List Var

/-- The loop over the words, from the `i`-th on. It breaks at a word that is not as expected. -/
def fieldLoop : ℕ → List Bytes → Locals → Locals
  | _, [], v => v
  | i, word :: words, v =>
    if i = 2 then
      if isFp word then fieldLoop (i + 1) words { v with fp := some word } else v
    else if i = 6 then
      let v := { v with ts := asNonnegativeLong word, assigned := .ts :: v.assigned }
      if v.ts < 0 then v else fieldLoop (i + 1) words v
    else if i = 7 then
      let v := { v with bwdown := asNonnegativeLong word, assigned := .bwdown :: v.assigned }
      if v.bwdown < 0 then v else fieldLoop (i + 1) words v
    else fieldLoop (i + 1) words v

/-- What comes of a line: the triple for the table, the variables that were read to decide on it,
and the variables at the end. -/
structure Decision where
  triple : Option Triple
  read : List Var
  locals : Locals

/-- `fp == NULL || ts < 0 || bwdown < 0`, from left to right. -/
def Locals.test (v : Locals) : Decision :=
  match v.fp with
  | none => ⟨none, [], v⟩
  | some fp =>
    if v.ts < 0 then ⟨none, [.ts], v⟩
    else if v.bwdown < 0 then ⟨none, [.ts, .bwdown], v⟩
    else ⟨some ⟨fp, v.ts, v.bwdown⟩, [.ts, .bwdown], v⟩

/-- The body of the loop of `read_input_to_ht` up to the hash table. In the places of `ts` and
`bwdown` are the values `stack`. -/
def readBody (stack : Int × Int) (line : Bytes) : Except Abort Decision := do
  let line ← trimNewlines line
  let words := gStrsplit 9 line
  let v : Locals := { fp := none, ts := stack.1, bwdown := stack.2, assigned := [] }
  if words.length ≠ 9 then pure ⟨none, [], v⟩
  else if (words.getD 4 []).take 3 ≠ bytes "650" then pure ⟨none, [], v⟩
  else if (words.getD 5 []).take 12 ≠ bytes "SPEEDTESTING" then pure ⟨none, [], v⟩
  else pure (fieldLoop 0 words v).test

/-- One round of the loop of `read_input_to_ht`. The next round finds on the stack what this one
left there. -/
def readRound (s : MsmTable × Int × Int) (line : Bytes) : Except Abort (MsmTable × Int × Int) := do
  let d ← readBody s.2 line
  let ht ← match d.triple with
    | none => pure s.1
    | some t => addTriple s.1 t
  pure (ht, d.locals.ts, d.locals.bwdown)

/-! What a line is made of. -/

/-- `words`, each with a space after it, and what follows them. -/
def spaced (words : List Bytes) (rest : Bytes) : Bytes :=
  words.foldr (fun w s => w ++ 0x20 :: s) rest

/-- A line with at least eight spaces. -/
structure MsmLine where
  time : Bytes
  mId : Bytes
  fp : Bytes
  client : Bytes
  code : Bytes
  kind : Bytes
  ts : Bytes
  bwdown : Bytes
  rest : Bytes

namespace MsmLine

/-- The eight words in front of the rest. -/
def front (l : MsmLine) : List Bytes :=
  [l.time, l.mId, l.fp, l.client, l.code, l.kind, l.ts, l.bwdown]

def text (l : MsmLine) : Bytes := spaced l.front l.rest

/-- The triple in a line, if it has one. -/
def triple (l : MsmLine) : Triple := ⟨l.fp, (strtol l.ts).1, (strtol l.bwdown).1⟩

end MsmLine

/-- A string that `strtol` consumes, with a value that is not negative. -/
structure Nonnegative (word : Bytes) : Prop where
  ne_nil : word ≠ []
  consumed : (strtol word).2 = []
  nonneg : 0 ≤ (strtol word).1

/-- What a line must be to have a triple. -/
structure MsmLine.Valid (l : MsmLine) : Prop where
  no_space : ∀ w ∈ l.front, 0x20 ∉ w
  code : bytes "650" <+: l.code
  kind : bytes "SPEEDTESTING" <+: l.kind
  length : l.fp.length = 40
  hex : ∀ c ∈ l.fp, (0x30 ≤ c ∧ c ≤ 0x39) ∨ (0x41 ≤ c ∧ c ≤ 0x46)
  ts : Nonnegative l.ts
  bwdown : Nonnegative l.bwdown

/-- A line without its newline. -/
def lineText (line : Bytes) : Bytes := line.filter (· ≠ 0x0A)

/-- The triple that a line contributes to the table. -/
def Contributes (line : Bytes) (t : Triple) : Prop :=
  ∃ l : MsmLine, l.text = lineText line ∧ l.Valid ∧ l.triple = t

section Pieces
variable {n : ℕ} {s : Bytes} {ws : List Bytes}

theorem splitAtMost_spaced (h : ∀ w ∈ ws, 0x20 ∉ w) (last : Bytes) :
    splitAtMost ws.length (spaced ws last) = ws ++ [last] := by
  induction ws with
  | nil => rfl
  | cons w ws ih =>
    obtain ⟨hw, hws⟩ := List.forall_mem_cons.mp h
    have hrec := ih hws
    rw [List.length_cons, spaced, List.foldr_cons, splitAtMost_cons hw]
    exact congrArg (w :: ·) hrec

/-- With all the cuts made, the text is the pieces with a space between each two of them. -/
theorem splitAtMost_full (h : (splitAtMost n s).length = n + 1) : ∃ ws last,
    ws.length = n ∧ s = spaced ws last ∧ ∀ w ∈ ws, 0x20 ∉ w := by
  induction n generalizing s with
  | zero => exact ⟨[], s, rfl, rfl, by simp⟩
  | succ n ih =>
    rw [splitAtMost] at h
    split at h
    · cases h
    next b rest hdrop =>
      obtain rfl : b = 0x20 := by
        have hhead := List.head?_dropWhile_not (fun b : UInt8 => decide (b ≠ 0x20)) s
        rw [hdrop] at hhead
        simpa using hhead
      obtain ⟨ws, last, hlen, hrest, hws⟩ := ih (by simpa using h)
      refine ⟨s.takeWhile (· ≠ 0x20) :: ws, last, ?_, ?_, ?_⟩
      · rw [List.length_cons, hlen]
      · rw [spaced, List.foldr_cons, ← spaced, ← hrest, ← hdrop]
        exact List.takeWhile_append_dropWhile.symm
      · refine List.forall_mem_cons.mpr ⟨fun hmem => ?_, hws⟩
        simpa using List.mem_takeWhile_imp hmem

theorem gStrsplit_text {l : MsmLine} (h : ∀ w ∈ l.front, 0x20 ∉ w) :
    gStrsplit 9 l.text = l.front ++ [l.rest] := by
  have hne : l.text ≠ [] := by simp [MsmLine.text, spaced, MsmLine.front]
  rw [gStrsplit, if_neg hne]
  exact splitAtMost_spaced h l.rest

/-- The pieces of a line are nine if and only if it has eight spaces. -/
theorem gStrsplit_nine : (gStrsplit 9 s).length = 9 ↔
    ∃ l : MsmLine, l.text = s ∧ ∀ w ∈ l.front, 0x20 ∉ w := by
  constructor
  · intro h
    have hne : s ≠ [] := by
      rintro rfl
      cases h
    rw [gStrsplit, if_neg hne] at h
    obtain ⟨ws, last, hlen, rfl, hws⟩ := splitAtMost_full h
    obtain ⟨time, mId, fp, client, hfirst⟩ := List.length_eq_four.mp
      (show (ws.take 4).length = 4 by simp [hlen])
    obtain ⟨code, kind, ts, bwdown, hsecond⟩ := List.length_eq_four.mp
      (show (ws.drop 4).length = 4 by simp [hlen])
    obtain rfl : ws = [time, mId, fp, client, code, kind, ts, bwdown] := by
      rw [← ws.take_append_drop 4, hfirst, hsecond]
      rfl
    exact ⟨⟨time, mId, fp, client, code, kind, ts, bwdown, last⟩, rfl, hws⟩
  · rintro ⟨l, rfl, hws⟩
    rw [gStrsplit_text hws]
    rfl

end Pieces

/-! What the words must be. -/

theorem isFp_iff {word : Bytes} : isFp word = true ↔ word.length = 40 ∧
    ∀ c ∈ word, (0x30 ≤ c ∧ c ≤ 0x39) ∨ (0x41 ≤ c ∧ c ≤ 0x46) := by
  have hchar : ∀ c : UInt8, (!(c < 0x30 || (c > 0x39 && c < 0x41) || c > 0x46)) = true ↔
      (0x30 ≤ c ∧ c ≤ 0x39) ∨ (0x41 ≤ c ∧ c ≤ 0x46) := by
    intro c
    simp only [Bool.not_eq_true', Bool.or_eq_false_iff, Bool.and_eq_false_iff,
      decide_eq_false_iff_not, UInt8.lt_iff_toNat_lt, UInt8.le_iff_toNat_le, gt_iff_lt]
    have h₁ : (0x30 : UInt8).toNat = 48 := rfl
    have h₂ : (0x39 : UInt8).toNat = 57 := rfl
    have h₃ : (0x41 : UInt8).toNat = 65 := rfl
    have h₄ : (0x46 : UInt8).toNat = 70 := rfl
    omega
  simp only [isFp, Bool.and_eq_true, decide_eq_true_eq, List.all_eq_true, hchar]

theorem asNonnegativeLong_of_nonnegative {word : Bytes} (h : Nonnegative word) :
    asNonnegativeLong word = (strtol word).1 := by
  simp [asNonnegativeLong, h.ne_nil, h.consumed]

theorem nonneg_iff {word : Bytes} : ¬ asNonnegativeLong word < 0 ↔ Nonnegative word := by
  refine ⟨fun h => ?_, fun h => ?_⟩
  · unfold asNonnegativeLong at h
    split at h
    · exact absurd (by decide) h
    next hne =>
      split at h
      next i rest heq =>
        split at h
        · exact absurd (by decide) h
        next hrest =>
          refine ⟨hne, ?_, ?_⟩
          · rw [heq]
            exact not_not.mp hrest
          · rw [heq]
            exact not_lt.mp h
  · rw [asNonnegativeLong_of_nonnegative h]
    exact not_lt.mpr h.nonneg

theorem take_iff {word p : Bytes} {n : ℕ} (h : p.length = n) :
    word.take n = p ↔ p <+: word := by
  rw [List.prefix_iff_eq_take, h, eq_comm]

section Body
variable {line : Bytes} {l : MsmLine} {t : Triple}

/-- The loop over nine words assigns the variables in turn, and the test after it reads no other. -/
theorem fieldLoop_nine (l : MsmLine) {v : Locals} (hfp : v.fp = none)
    (hcode : l.code.take 3 = bytes "650") (hkind : l.kind.take 12 = bytes "SPEEDTESTING") :
    let d := (fieldLoop 0 (l.front ++ [l.rest]) v).test
    d.triple = acceptWords l.fp l.code l.kind l.ts l.bwdown ∧ d.read ⊆ d.locals.assigned := by
  simp only [MsmLine.front, List.cons_append, List.nil_append, acceptWords, hcode, hkind]
  by_cases hf : isFp l.fp = true
  · by_cases hts : asNonnegativeLong l.ts < 0
    · simp [fieldLoop, Locals.test, hf, hts]
    · by_cases hbw : asNonnegativeLong l.bwdown < 0
      · simp [fieldLoop, Locals.test, hf, hts, hbw]
      · simp [fieldLoop, Locals.test, hf, hts, hbw]
  · simp [fieldLoop, Locals.test, hf, hfp]

theorem acceptWords_iff : acceptWords l.fp l.code l.kind l.ts l.bwdown = some t ↔
    (bytes "650" <+: l.code ∧ bytes "SPEEDTESTING" <+: l.kind ∧ isFp l.fp = true ∧
      Nonnegative l.ts ∧ Nonnegative l.bwdown) ∧ l.triple = t := by
  simp only [acceptWords, Option.ite_none_left_eq_some, Option.some.injEq, ne_eq, not_not,
    take_iff (show (bytes "650").length = 3 by decide),
    take_iff (show (bytes "SPEEDTESTING").length = 12 by decide), nonneg_iff]
  constructor
  · rintro ⟨hcode, hkind, hfp, hts, hbw, rfl⟩
    refine ⟨⟨hcode, hkind, hfp, hts, hbw⟩, ?_⟩
    rw [MsmLine.triple, asNonnegativeLong_of_nonnegative hts, asNonnegativeLong_of_nonnegative hbw]
  · rintro ⟨⟨hcode, hkind, hfp, hts, hbw⟩, rfl⟩
    refine ⟨hcode, hkind, hfp, hts, hbw, ?_⟩
    rw [MsmLine.triple, asNonnegativeLong_of_nonnegative hts, asNonnegativeLong_of_nonnegative hbw]

/-- With the variables of the body or without them, the same becomes of a line. -/
theorem readBody_eq (stack : Int × Int) (line : Bytes) :
    (∃ e, readBody stack line = .error e ∧ readLine line = .error e) ∨
    ∃ d, readBody stack line = .ok d ∧ readLine line = .ok d.triple ∧
      d.read ⊆ d.locals.assigned := by
  unfold readBody readLine
  cases trimNewlines line with
  | error e => exact .inl ⟨e, rfl, rfl⟩
  | ok text =>
    refine .inr ?_
    simp only [bind, Except.bind]
    by_cases hlen : (gStrsplit 9 text).length = 9
    · obtain ⟨l, rfl, hl⟩ := gStrsplit_nine.mp hlen
      rw [gStrsplit_text hl]
      have hcode : (l.front ++ [l.rest]).getD 4 [] = l.code := rfl
      have hkind : (l.front ++ [l.rest]).getD 5 [] = l.kind := rfl
      rw [hcode, hkind, if_neg (fun h => h rfl)]
      by_cases hc : l.code.take 3 = bytes "650"
      · by_cases hk : l.kind.take 12 = bytes "SPEEDTESTING"
        · rw [if_neg (not_not.mpr hc), if_neg (not_not.mpr hk)]
          obtain ⟨htriple, hassigned⟩ := fieldLoop_nine l
            (v := { fp := none, ts := stack.1, bwdown := stack.2, assigned := [] }) rfl hc hk
          exact ⟨_, rfl, congrArg Except.ok htriple.symm, hassigned⟩
        · rw [if_neg (not_not.mpr hc), if_pos hk]
          have hnone : acceptWords l.fp l.code l.kind l.ts l.bwdown = none := by
            simp [acceptWords, hk]
          exact ⟨_, rfl, congrArg Except.ok hnone, List.nil_subset _⟩
      · rw [if_pos hc]
        have hnone : acceptWords l.fp l.code l.kind l.ts l.bwdown = none := by
          simp [acceptWords, hc]
        exact ⟨_, rfl, congrArg Except.ok hnone, List.nil_subset _⟩
    · rw [if_pos hlen]
      refine ⟨_, rfl, ?_, List.nil_subset _⟩
      split
      next heq =>
        rw [heq] at hlen
        exact absurd rfl hlen
      · rfl

/-- The rounds of the loop are those of the reader without the variables. -/
theorem foldlM_readRound (lines : List Bytes) (s : MsmTable × Int × Int) :
    Prod.fst <$> lines.foldlM readRound s = lines.foldlM (fun ht line => do
      match ← readLine line with
      | none => pure ht
      | some t => addTriple ht t) s.1 := by
  induction lines generalizing s with
  | nil => rfl
  | cons line lines ih =>
    rw [List.foldlM_cons, List.foldlM_cons]
    rcases readBody_eq s.2 line with ⟨e, hbody, hline⟩ | ⟨d, hbody, hline, -⟩
    · simp only [readRound, hbody, hline]
      rfl
    · simp only [readRound, hbody, hline, bind, Except.bind]
      cases d.triple with
      | none => exact ih _
      | some t =>
        cases hadd : addTriple s.1 t with
        | error e =>
          simp only [hadd]
          rfl
        | ok ht =>
          simp only [hadd]
          exact ih _

end Body

/-! The lines of a file. -/

theorem mem_getlines {input line : Bytes} (h : line ∈ getlines input) :
    ∃ body, 0x0A ∉ body ∧ (line = body ++ [0x0A] ∨ line = body ∧ body ≠ []) := by
  induction input generalizing line with
  | nil => cases h
  | cons b rest ih =>
    rw [getlines] at h
    split at h
    next hb =>
      rcases List.mem_cons.mp h with rfl | h
      · exact ⟨[], by simp, .inl (by simp [hb])⟩
      · exact ih h
    next hb =>
      split at h
      next =>
        obtain rfl := List.mem_singleton.mp h
        exact ⟨[b], by simpa using Ne.symm hb, .inr ⟨rfl, List.cons_ne_nil _ _⟩⟩
      next first lines heq =>
        rcases List.mem_cons.mp h with rfl | h
        · obtain ⟨body, hnl, hbody⟩ := ih (heq ▸ List.mem_cons_self)
          refine ⟨b :: body, by simp [Ne.symm hb, hnl], ?_⟩
          rcases hbody with rfl | ⟨rfl, -⟩
          · exact .inl rfl
          · exact .inr ⟨rfl, List.cons_ne_nil _ _⟩
        · exact ih (heq ▸ List.mem_cons_of_mem _ h)

/-- A line that is not blank is trimmed to its text. -/
theorem trimNewlines_getlines {input line : Bytes} (h : line ∈ getlines input)
    (hblank : line ≠ [0x0A]) (h0 : 0 ∉ line) : trimNewlines line = .ok (lineText line) := by
  obtain ⟨body, hnl, hline⟩ := mem_getlines h
  have htext : body.filter (· ≠ 0x0A) = body := by
    apply List.filter_eq_self.mpr
    intro b hb
    rw [decide_eq_true_eq]
    exact fun heq => hnl (heq ▸ hb)
  rcases hline with rfl | ⟨rfl, hne⟩
  · have hne : body ≠ [] := by
      rintro rfl
      exact hblank rfl
    rw [lineText, List.filter_append, htext, trimNewlines_line hne hnl (by simpa using h0)]
    simp
  · obtain ⟨front, b, rfl⟩ := (List.eq_nil_or_concat line).resolve_left hne
    have hb : b ≠ 0x0A := by
      rintro rfl
      simp at hnl
    rw [lineText, htext, trimNewlines, cstr_of_not_mem h0]
    simp [trimFromEnd, hb]

theorem contribution_text {line : Bytes} {l : MsmLine} (htrim : trimNewlines line = .ok l.text)
    (hl : ∀ w ∈ l.front, 0x20 ∉ w) :
    contribution line = acceptWords l.fp l.code l.kind l.ts l.bwdown := by
  simp only [contribution, readLine, htrim, gStrsplit_text hl, bind, Except.bind]
  rfl

/-- A line that can be trimmed contributes what its words say. -/
theorem contribution_iff {line : Bytes} (htrim : trimNewlines line = .ok (lineText line))
    (t : Triple) : contribution line = some t ↔ Contributes line t := by
  constructor
  · intro h
    have hlen : (gStrsplit 9 (lineText line)).length = 9 := by
      by_contra hlen
      simp only [contribution, readLine, htrim, bind, Except.bind] at h
      split at h
      next o heq =>
        split at heq
        next hwords => exact hlen (by rw [hwords]; rfl)
        · rw [← Except.ok.inj heq] at h
          cases h
      · cases h
    obtain ⟨l, htext, hl⟩ := gStrsplit_nine.mp hlen
    rw [contribution_text (htext ▸ htrim) hl, acceptWords_iff] at h
    obtain ⟨⟨hcode, hkind, hfp, hts, hbw⟩, htriple⟩ := h
    obtain ⟨hlength, hhex⟩ := isFp_iff.mp hfp
    exact ⟨l, htext, ⟨hl, hcode, hkind, hlength, hhex, hts, hbw⟩, htriple⟩
  · rintro ⟨l, htext, hl, htriple⟩
    rw [contribution_text (htext ▸ htrim) hl.no_space, acceptWords_iff]
    exact ⟨⟨hl.code, hl.kind, isFp_iff.mpr ⟨hl.length, hl.hex⟩, hl.ts, hl.bwdown⟩, htriple⟩

theorem mapM_contribution {lines : List Bytes} (h : ∀ line ∈ lines, ∃ o, readLine line = .ok o) :
    lines.mapM readLine = .ok (lines.map contribution) := by
  induction lines with
  | nil => rfl
  | cons line lines ih =>
    obtain ⟨⟨o, ho⟩, hrest⟩ := List.forall_mem_cons.mp h
    have hcon : contribution line = o := by simp [contribution, ho]
    rw [List.mapM_cons, ho, ih hrest, List.map_cons, hcon]
    rfl

/-! What the table holds after a line. -/

/-- The entry `m` of a relay that had the entry `old`, if any, with the triple `t` of the relay: its
bandwidth is added to its second, if that is in the window. -/
structure Records (old : Option MsmInfo) (t : Triple) (m : MsmInfo) : Prop where
  fp : m.fp = t.fp
  first : m.first = old.elim t.ts MsmInfo.first
  sums : ∀ o (h : o < numMsmsInMsmInfo), m.msms[o] =
    old.elim 0 (fun m => m.msms[o]) + if t.ts = m.first + o then t.bw else 0
  used : m.used = if m.first ≤ t.ts ∧ t.ts < m.first + numMsmsInMsmInfo
    then max (old.elim 0 MsmInfo.used) ((t.ts - m.first).toNat + 1) else old.elim 0 MsmInfo.used

/-- The table `ht` with the triple `t`: the entry of its relay has changed, and no other. -/
def Entered (ht : MsmTable) (t : Triple) : Except Abort MsmTable → Prop
  | .ok ht' => (∃ m, ht'.lookup t.fp = some m ∧ Records (ht.lookup t.fp) t m) ∧
      ∀ fp, fp ≠ t.fp → ht'.lookup fp = ht.lookup fp
  | .error e => e = .signedOverflow ∧
      ∃ m, ht.lookup t.fp = some m ∧ msmInfoAdd m t.ts t.bw = .error .signedOverflow

section Entry
variable {m m' : MsmInfo} {t : Triple}

theorem records_init (t : Triple) : Records none t (msmInfoInit t.fp t.ts t.bw) where
  fp := rfl
  first := rfl
  sums o ho := by
    change _ = 0 + if t.ts = t.ts + (o : Int) then t.bw else 0
    simp only [msmInfoInit, Vector.getElem_set, Vector.getElem_replicate]
    split <;> split <;> omega
  used := by
    change 1 = if t.ts ≤ t.ts ∧ t.ts < t.ts + (60 : ℕ) then max 0 ((t.ts - t.ts).toNat + 1) else 0
    rw [if_pos (by omega)]
    omega

/-- A triple outside of the window changes nothing. -/
theorem records_outside (hfp : m.fp = t.fp)
    (hout : ¬ (m.first ≤ t.ts ∧ t.ts < m.first + numMsmsInMsmInfo)) : Records (some m) t m where
  fp := hfp
  first := rfl
  sums o ho := by
    have hne : ¬ t.ts = m.first + (o : Int) := by omega
    simp [hne]
  used := (if_neg hout).symm

theorem longAdd_ok {a b c : Int} (h : longAdd a b = .ok c) : c = a + b := by
  unfold longAdd at h
  split at h
  · exact (Except.ok.inj h).symm
  · cases h

theorem longAdd_fails {a b : Int} {e : Abort} (h : longAdd a b = .error e) :
    e = .signedOverflow := by
  unfold longAdd at h
  split at h
  · cases h
  · exact (Except.error.inj h).symm

/-- `msm_info_add` records the triple, or it overflows. -/
theorem msmInfoAdd_records (hfp : m.fp = t.fp) : match msmInfoAdd m t.ts t.bw with
    | .ok m' => Records (some m) t m'
    | .error e => e = .signedOverflow := by
  rw [msmInfoAdd]
  by_cases hlt : t.ts < m.first
  · rw [if_pos hlt]
    exact records_outside hfp (by omega)
  rw [if_neg hlt]
  cases hstop : longAdd m.first numMsmsInMsmInfo with
  | error e => exact longAdd_fails hstop
  | ok stop =>
    obtain rfl := longAdd_ok hstop
    simp only [bind, Except.bind]
    by_cases hge : t.ts ≥ m.first + numMsmsInMsmInfo
    · rw [if_pos hge]
      exact records_outside hfp (by omega)
    have ho : (t.ts - m.first).toNat < numMsmsInMsmInfo := by omega
    rw [if_neg hge, dif_pos ho]
    cases hsum : longAdd m.msms[(t.ts - m.first).toNat] t.bw with
    | error e => exact longAdd_fails hsum
    | ok sum =>
      obtain rfl := longAdd_ok hsum
      refine ⟨hfp, rfl, fun o hlt => ?_, ?_⟩
      · simp only [Vector.getElem_set, Option.elim_some]
        by_cases heq : (t.ts - m.first).toNat = o
        · subst heq
          rw [if_pos rfl, if_pos (by omega)]
        · rw [if_neg heq, if_neg (by omega), add_zero]
      · have hin : m.first ≤ t.ts ∧ t.ts < m.first + numMsmsInMsmInfo := by omega
        simp only [Option.elim_some]
        rw [if_pos hin]
        split <;> omega

theorem addTriple_entered (ht : MsmTable) (t : Triple) : Entered ht t (addTriple ht t) := by
  unfold addTriple
  split
  next hnone =>
    refine ⟨⟨_, MsmTable.lookup_insert_self hnone, ?_⟩, fun fp hne => ?_⟩
    · rw [hnone]
      exact records_init t
    · exact MsmTable.lookup_insert_of_ne hnone hne
  next m hsome =>
    have hadd := msmInfoAdd_records (MsmTable.fp_of_lookup hsome)
    cases hex : msmInfoAdd m t.ts t.bw with
    | error e =>
      rw [hex] at hadd
      obtain rfl : e = .signedOverflow := hadd
      exact ⟨rfl, m, hsome, hex⟩
    | ok m' =>
      rw [hex] at hadd
      have hrec : Records (some m) t m' := hadd
      refine ⟨⟨m', ?_, hsome ▸ hrec⟩, fun fp hne => ?_⟩
      · rw [← hrec.fp] at hsome ⊢
        exact MsmTable.lookup_update_self hsome
      · exact MsmTable.lookup_update_of_ne (hrec.fp ▸ hne)

end Entry

/-- The lines that contribute to the table are those with a result in their words, and they do so
with the values of these words, whatever was in the places of `ts` and `bwdown`: neither is read on
a line on which it has not been assigned. Such a line changes the entry of its relay, and the others
change nothing. -/
theorem line_filter {input : Bytes} (h : ∀ line ∈ getlines input, line ≠ [0x0A] ∧ 0 ∉ line) :
    (∀ line ∈ getlines input, (∀ t, contribution line = some t ↔ Contributes line t) ∧
      ∀ ht stack, ∃ d, readBody stack line = .ok d ∧ d.read ⊆ d.locals.assigned ∧
        (contribution line = none → Prod.fst <$> readRound (ht, stack) line = .ok ht) ∧
        ∀ t, contribution line = some t →
          Entered ht t (Prod.fst <$> readRound (ht, stack) line)) ∧
    (∀ ht stack, Prod.fst <$> (getlines input).foldlM readRound (ht, stack) =
      ((getlines input).filterMap contribution).foldlM addTriple ht) ∧
    ∀ stack, readInputToHt input =
      Prod.fst <$> (getlines input).foldlM readRound (.empty, stack) := by
  have htrim : ∀ line ∈ getlines input, trimNewlines line = .ok (lineText line) :=
    fun line hline => trimNewlines_getlines hline (h line hline).1 (h line hline).2
  have hread : ∀ line ∈ getlines input, ∃ o, readLine line = .ok o := by
    intro line hline
    simp only [readLine, htrim line hline, bind, Except.bind]
    split
    · exact ⟨_, rfl⟩
    · exact ⟨_, rfl⟩
  refine ⟨fun line hline => ⟨contribution_iff (htrim line hline), fun table stack => ?_⟩,
    fun ht stack => ?_, fun stack => (foldlM_readRound (getlines input) (.empty, stack)).symm⟩
  · obtain ⟨o, ho⟩ := hread line hline
    rcases readBody_eq stack line with ⟨e, -, he⟩ | ⟨d, hbody, hd, hassigned⟩
    · rw [ho] at he
      cases he
    · have hcon : contribution line = d.triple := by simp [contribution, hd]
      refine ⟨d, hbody, hassigned, fun hnone => ?_, fun t ht => ?_⟩
      · rw [hcon] at hnone
        simp only [readRound, hbody, hnone, bind, Except.bind]
        rfl
      · rw [hcon] at ht
        simp only [readRound, hbody, ht, bind, Except.bind]
        have hentered := addTriple_entered table t
        cases hadd : addTriple table t with
        | ok ht' =>
          rw [hadd] at hentered
          exact hentered
        | error e =>
          rw [hadd] at hentered
          exact hentered
  · have hfilter : ((getlines input).map contribution).filterMap id =
        (getlines input).filterMap contribution := List.filterMap_map
    rw [← hfilter]
    exact (foldlM_readRound _ _).trans (foldlM_lines ht (mapM_contribution hread))

/-- The table of two relays, each of which has been reported once. -/
def twoRelays : MsmTable :=
  (MsmTable.empty.insert (msmInfoInit (List.replicate 40 0x41) 5 7) rfl).insert
    (msmInfoInit (List.replicate 40 0x42) 6 8) rfl

/-- The first three lines, one of them without a result, make the table of two relays. The fourth
adds to the entry of the first one. -/
theorem line_filter_four : Prod.fst <$> (getlines (exampleLine 0x41 "5 7 1\n" ++
      exampleLine 0x41 "BEGIN 7 1\n" ++ exampleLine 0x42 "6 8 1 and more")).foldlM readRound
        (.empty, 0, 0) = .ok twoRelays ∧
    ∃ ht m, Prod.fst <$> readRound (twoRelays, 0, 0) (exampleLine 0x41 "6 3 1\n") = .ok ht ∧
      ht.lookup (List.replicate 40 0x41) = some m ∧ m.first = 5 ∧ m.used = 2 ∧
      m.msms[0] = 7 ∧ m.msms[1] = 3 ∧ m.msms[2] = 0 ∧
      ht.lookup (List.replicate 40 0x42) = some (msmInfoInit (List.replicate 40 0x42) 6 8) := by
  refine ⟨?_, ?_⟩
  · rw [(line_filter (by decide +kernel)).2.1 .empty (0, 0)]
    rfl
  · have hline : exampleLine 0x41 "6 3 1\n" ∈ getlines (exampleLine 0x41 "6 3 1\n") := by
      decide +kernel
    have hfilter := line_filter (by decide +kernel : ∀ line ∈
      getlines (exampleLine 0x41 "6 3 1\n"), line ≠ [0x0A] ∧ 0 ∉ line)
    obtain ⟨d, -, -, -, hsome⟩ := (hfilter.1 _ hline).2 twoRelays (0, 0)
    have hentered := hsome ⟨List.replicate 40 0x41, 6, 3⟩ (by decide +kernel)
    have hround : ∃ ht, Prod.fst <$> readRound (twoRelays, 0, 0) (exampleLine 0x41 "6 3 1\n") =
        .ok ht := ⟨_, rfl⟩
    obtain ⟨ht, hround⟩ := hround
    rw [hround] at hentered
    obtain ⟨⟨m, hm, hrec⟩, hothers⟩ := hentered
    have hold : twoRelays.lookup (List.replicate 40 0x41) =
        some (msmInfoInit (List.replicate 40 0x41) 5 7) := rfl
    rw [hold] at hrec
    have hfirst : m.first = 5 := hrec.first
    have hused := hrec.used
    have hsums := hrec.sums
    rw [hfirst] at hused hsums
    exact ⟨ht, m, hround, hm, hfirst, hused, hsums 0 (by decide), hsums 1 (by decide),
      hsums 2 (by decide), hothers _ (by decide)⟩

end Flashflow
