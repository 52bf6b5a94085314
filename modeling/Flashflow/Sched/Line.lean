import Flashflow.Library.Tokens
import Flashflow.Sched.Schedule

/-! Writing and reading one line of a schedule file: a line that is put together from words is read
back as these words, however they are spaced. -/
namespace Flashflow.Sched
open Outcome Tokens

/-- `.join(sep)` -/
def joinWith (sep : Char) (ts : List Text) : Text := [sep].intercalate ts

/-- `to_string` of a number that is not negative -/
def numText (n : ℕ) : Text := Nat.toDigits 10 n

/-- A text that reading a line does not cut or trim. -/
structure IsWord (t : Text) : Prop where
  ne_nil : t ≠ []
  black : ∀ c ∈ t, isWhitespace c = false

/-- A word that can stand in a comma-separated list. -/
structure IsName (t : Text) : Prop extends IsWord t where
  no_comma : ',' ∉ t

theorem isWord_iff {t : Text} : t ≠ [] ∧ (t.all fun c => !isWhitespace c) = true ↔ IsWord t := by
  simp only [List.all_eq_true, Bool.not_eq_true']
  exact ⟨fun h => ⟨h.1, h.2⟩, fun h => ⟨h.ne_nil, h.black⟩⟩

theorem isName_iff {t : Text} :
    (t ≠ [] ∧ (t.all fun c => !isWhitespace c) = true) ∧ ',' ∉ t ↔ IsName t := by
  rw [isWord_iff]
  exact ⟨fun h => ⟨h.1, h.2⟩, fun h => ⟨h.toIsWord, h.no_comma⟩⟩

instance (t : Text) : Decidable (IsName t) := decidable_of_iff _ isName_iff

section Words
variable {s t : Text} {ws : List Text}

theorem IsWord.no_space (h : IsWord t) : ' ' ∉ t := fun hc => by
  have hb := h.black ' ' hc
  revert hb
  decide

theorem dropWhile_black (h : ∀ c ∈ s, isWhitespace c = false) : s.dropWhile isWhitespace = s := by
  cases s with
  | nil => rfl
  | cons c s => rw [List.dropWhile_cons_of_neg (by simpa using h c List.mem_cons_self)]

theorem IsWord.trim (h : IsWord t) : trim t = t := by
  have hrev : ∀ c ∈ t.reverse, isWhitespace c = false :=
    fun c hc => h.black c (List.mem_reverse.mp hc)
  rw [Sched.trim, dropWhile_black h.black, dropWhile_black hrev, List.reverse_reverse]

theorem joinWith_cons (sep : Char) (t : Text) (hws : ws ≠ []) :
    joinWith sep (t :: ws) = t ++ sep :: joinWith sep ws := by
  obtain ⟨w, ws, rfl⟩ := List.exists_cons_of_ne_nil hws
  simp [joinWith, List.intercalate_cons_cons]

@[simp] theorem joinWith_singleton (sep : Char) (t : Text) : joinWith sep [t] = t := by
  simp [joinWith]

theorem joinWith_ne_nil (sep : Char) (h : ∀ w ∈ ws, w ≠ []) (hne : ws ≠ []) :
    joinWith sep ws ≠ [] := by
  obtain ⟨t, ws, rfl⟩ := List.exists_cons_of_ne_nil hne
  by_cases hws : ws = []
  · subst hws
    rw [joinWith_singleton]
    exact h t List.mem_cons_self
  · rw [joinWith_cons sep t hws]
    simp

theorem splitOn_joinWith (sep : Char) (h : ∀ w ∈ ws, sep ∉ w) (hne : ws ≠ []) :
    (joinWith sep ws).splitOn sep = ws := List.splitOn_intercalate sep h hne

end Words

/-! The spaces between the words. -/

section Spaced
variable {s : Text} {ws : List Text} {w : LineWords}

/-- Only the pieces of a line that are not empty count. -/
theorem foldlM_word_pieces (ps : List Text) (w : LineWords) :
    ps.foldlM LineWords.word w = (ps.filter fun t => !t.isEmpty).foldlM LineWords.word w := by
  refine foldlM_filter (fun w t ht => ?_) ps w
  obtain rfl : t = [] := by simpa using ht
  rfl

theorem trim_eq (s : Text) : trim s = (s.dropWhile isWhitespace).rdropWhile isWhitespace := rfl

/-- If only spaces are trimmed, the pieces stay. -/
theorem tokens_trim (h : ∀ c ∈ s, isWhitespace c = true → c = ' ') :
    tokens (· == ' ') (trim s) = tokens (· == ' ') s := by
  have hfront : tokens (· == ' ') (s.dropWhile isWhitespace) = tokens (· == ' ') s := by
    have hsep : ∀ c ∈ s.takeWhile isWhitespace, (c == ' ') = true := fun c hc =>
      beq_iff_eq.mpr (h c (List.takeWhile_subset _ hc) (List.mem_takeWhile_imp hc))
    have hcut : s.takeWhile isWhitespace ++ s.dropWhile isWhitespace = s :=
      List.takeWhile_append_dropWhile
    rw [← congrArg (tokens _) hcut,
      tokens_append (.inl fun c hc => hsep c (List.mem_of_getLast? hc)),
      tokens_eq_nil_iff.mpr hsep, List.nil_append]
  have hback : tokens (· == ' ') (trim s) = tokens (· == ' ') (s.dropWhile isWhitespace) := by
    have hsep : ∀ c ∈ (s.dropWhile isWhitespace).rtakeWhile isWhitespace, (c == ' ') = true := by
      intro c hc
      have hmem := (List.rtakeWhile_suffix isWhitespace _).subset hc
      exact beq_iff_eq.mpr (h c (List.dropWhile_subset _ hmem) (List.mem_rtakeWhile_imp hc))
    have hcut : trim s ++ (s.dropWhile isWhitespace).rtakeWhile isWhitespace =
        s.dropWhile isWhitespace := List.rdropWhile_append_rtakeWhile
    rw [← congrArg (tokens _) hcut,
      tokens_append (.inr fun c hc => hsep c (List.mem_of_head? hc)),
      tokens_eq_nil_iff.mpr hsep, List.append_nil]
  rw [hback, hfront]

theorem trim_head {c : Char} {rest : Text} (h : trim s = c :: rest) : isWhitespace c = false := by
  have hpre := List.rdropWhile_prefix isWhitespace (s.dropWhile isWhitespace)
  rw [← trim_eq, h] at hpre
  obtain ⟨back, hback⟩ := hpre
  have hhead := List.head?_dropWhile_not isWhitespace s
  rw [← hback] at hhead
  simpa using hhead

/-- A line of words with spaces around them has no other blanks. -/
theorem blank_of_separated (hs : Separated (· == ' ') ws s) (hws : ∀ t ∈ ws, IsWord t) :
    ∀ c ∈ s, isWhitespace c = true → c = ' ' := by
  induction hs with
  | nil h => exact fun c hc _ => beq_iff_eq.mp (h c hc)
  | @cons sep t rest ts hsep _ _ _ _ ih =>
    obtain ⟨ht, hts⟩ := List.forall_mem_cons.mp hws
    intro c hc hblank
    rcases List.mem_append.mp hc with hc | hc
    · exact beq_iff_eq.mp (hsep c hc)
    · rcases List.mem_append.mp hc with hc | hc
      · rw [ht.black c hc] at hblank
        cases hblank
      · exact ih hts c hc hblank

/-- A line whose words have been read into `w`, however they are spaced. -/
theorem newFromString_separated {t : Text} (hs : Separated (· == ' ') (t :: ws) s)
    (hws : ∀ u ∈ t :: ws, IsWord u) (hdigit : ∀ c ∈ t, c.isDigit = true)
    (hfold : (t :: ws).foldlM LineWords.word {} = .ok w) :
    newFromString s = w.finish.map some := by
  have hpieces : tokens (· == ' ') (trim s) = t :: ws :=
    (tokens_trim (blank_of_separated hs hws)).trans hs.tokens_eq
  have hsplit : ((trim s).splitOn ' ').foldlM LineWords.word {} = .ok w := by
    rw [foldlM_word_pieces, ← hfold, ← hpieces]
    rfl
  cases htrim : trim s with
  | nil =>
    rw [htrim, tokens_nil] at hpieces
    cases hpieces
  | cons c rest =>
    have hblack : (c == ' ') = false := by
      rw [beq_eq_false_iff_ne]
      rintro rfl
      cases trim_head htrim
    have hcomment : (c == '#') = false := by
      rw [htrim, tokens_cons (p := (· == ' ')) hblack] at hpieces
      obtain ⟨rfl, -⟩ := List.cons.inj hpieces
      rw [beq_eq_false_iff_ne]
      rintro rfl
      cases hdigit '#' List.mem_cons_self
    rw [htrim] at hsplit
    unfold newFromString
    rw [htrim]
    simp only [List.isEmpty_cons, List.head?_cons, Bool.false_or, Option.some_beq_some, hcomment,
      Bool.false_eq_true, ↓reduceIte, hsplit, bind, Except.bind]
    cases w.finish <;> rfl

/-- Words joined by single spaces, with or without spaces at the end. -/
theorem separated_joinWith (hws : ∀ u ∈ ws, IsWord u) (back : Text)
    (hback : ∀ c ∈ back, c = ' ') :
    Separated (· == ' ') ws (joinWith ' ' ws ++ back) := by
  have hback' : ∀ c ∈ back, (c == ' ') = true := fun c hc => beq_iff_eq.mpr (hback c hc)
  induction ws with
  | nil => exact .nil hback'
  | cons t ws ih =>
    obtain ⟨ht, hrest⟩ := List.forall_mem_cons.mp hws
    have hclean : ∀ c ∈ t, (c == ' ') = false := by
      intro c hc
      rw [beq_eq_false_iff_ne]
      rintro rfl
      exact ht.no_space hc
    by_cases hne : ws = []
    · subst hne
      rw [joinWith_singleton, ← List.nil_append (t ++ back)]
      exact .cons (by simp) ht.ne_nil hclean (fun c hc => hback' c (List.mem_of_head? hc))
        (.nil hback')
    · have hsep : Separated (· == ' ') ws (' ' :: (joinWith ' ' ws ++ back)) :=
        (ih hrest).sep_cons rfl
      rw [joinWith_cons ' ' t hne, List.append_assoc, List.cons_append, ← List.nil_append (t ++ _)]
      exact .cons (by simp) ht.ne_nil hclean (by simp) hsep

end Spaced

/-! Numbers. -/

theorem numText_digit {n : ℕ} {c : Char} (hc : c ∈ numText n) : c.isDigit = true :=
  Nat.isDigit_of_mem_toDigits (by decide) (by decide) hc

theorem isName_of_digits {t : Text} (hne : t ≠ []) (h : ∀ c ∈ t, c.isDigit = true) : IsName t := by
  have hrange : ∀ c ∈ t, 48 ≤ c.toNat ∧ c.toNat ≤ 57 := by
    intro c hc
    have hd := h c hc
    simp only [Char.isDigit, Bool.and_eq_true, decide_eq_true_eq, UInt32.le_iff_toNat_le] at hd
    exact hd
  refine ⟨⟨hne, fun c hc => ?_⟩, fun hc => ?_⟩
  · obtain ⟨hlo, hhi⟩ := hrange c hc
    unfold isWhitespace
    simp
    omega
  · have hbad := hrange ',' hc
    revert hbad
    decide

theorem numText_isName (n : ℕ) : IsName (numText n) :=
  isName_of_digits Nat.toDigits_ne_nil fun _ => numText_digit

theorem digitsValue_snoc (t : Text) (c : Char) :
    digitsValue (t ++ [c]) = 10 * digitsValue t + (c.toNat - '0'.toNat) := by
  simp [digitsValue]

theorem digitsValue_numText (n : ℕ) : digitsValue (numText n) = n := by
  have hdigit : ∀ d < 10, (Nat.digitChar d).toNat - '0'.toNat = d := by decide
  induction n using Nat.strongRecOn with
  | _ n ih =>
    rw [numText, Nat.toDigits_eq_if (by decide)]
    by_cases hn : n < 10
    · rw [if_pos hn]
      simpa [digitsValue] using hdigit n hn
    · rw [if_neg hn, digitsValue_snoc, hdigit _ (Nat.mod_lt n (by decide))]
      have hrec := ih (n / 10) (by omega)
      rw [numText] at hrec
      rw [hrec]
      omega

theorem parseU32_numText {n : ℕ} (hn : n < 2 ^ 32) :
    parseU32 (numText n) = .ok (UInt32.ofNat n) := by
  obtain ⟨c, rest, hc⟩ := List.exists_cons_of_ne_nil (numText_isName n).ne_nil
  have hdigits : (numText n).all Char.isDigit = true := List.all_eq_true.mpr fun _ => numText_digit
  have hplus : c ≠ '+' := by
    rintro rfl
    have hd := numText_digit (n := n) (hc ▸ List.mem_cons_self)
    revert hd
    decide
  have hval := digitsValue_numText n
  rw [hc] at hdigits hval ⊢
  unfold parseU32
  split
  next heq =>
    obtain ⟨rfl, -⟩ := List.cons.inj heq
    exact absurd rfl hplus
  next => simpa [hdigits, hval] using hn

theorem mapM_parseU32 {ns : List ℕ} (h : ∀ n ∈ ns, n < 2 ^ 32) :
    (ns.map numText).mapM parseU32 = .ok (ns.map UInt32.ofNat) := by
  induction ns with
  | nil => rfl
  | cons n ns ih =>
    obtain ⟨hn, hns⟩ := List.forall_mem_cons.mp h
    simp only [List.map_cons, List.mapM_cons, parseU32_numText hn, ih hns]
    rfl

theorem splitOn_names {ts : List Text} (h : ∀ t ∈ ts, IsName t) (hne : ts ≠ []) :
    (joinWith ',' ts).splitOn ',' = ts := splitOn_joinWith ',' (fun t ht => (h t ht).no_comma) hne

/-- Names joined by commas are one word. -/
theorem joinWith_isWord {ts : List Text} (h : ∀ t ∈ ts, IsName t) (hne : ts ≠ []) :
    IsWord (joinWith ',' ts) := by
  refine ⟨joinWith_ne_nil ',' (fun t ht => (h t ht).ne_nil) hne, ?_⟩
  clear hne
  induction ts with
  | nil => exact fun c hc => absurd hc List.not_mem_nil
  | cons t ts ih =>
    obtain ⟨ht, hts⟩ := List.forall_mem_cons.mp h
    by_cases hne : ts = []
    · subst hne
      rw [joinWith_singleton]
      exact ht.black
    · rw [joinWith_cons ',' t hne]
      intro c hc
      rcases List.mem_append.mp hc with hc | hc
      · exact ht.black c hc
      · rcases List.mem_cons.mp hc with rfl | hc
        · decide
        · exact ih hts c hc

/-! A line. -/

/-- What the first six words of a line say. -/
structure LineParts where
  id : ℕ
  fp : Text
  dur : ℕ
  classes : List Text
  bws : List ℕ
  conns : List ℕ

def LineParts.words (l : LineParts) : List Text :=
  [numText l.id, l.fp, numText l.dur, joinWith ',' l.classes, joinWith ',' (l.bws.map numText),
    joinWith ',' (l.conns.map numText)]

/-- The variables of `new_from_string` after `n` words. -/
def LineParts.read (l : LineParts) (n : ℕ) (depends : List UInt32) : LineWords where
  wordNum := n
  id := UInt32.ofNat l.id
  fp := l.fp
  dur := UInt32.ofNat l.dur
  hostClass := l.classes
  hostBw := l.bws.map UInt32.ofNat
  hostConns := l.conns.map UInt32.ofNat
  depends := depends

/-- The names can be told apart again, and the numbers fit. -/
structure LineParts.Readable (l : LineParts) : Prop where
  id : l.id < 2 ^ 32
  fp : IsWord l.fp
  dur : l.dur < 2 ^ 32
  classes : ∀ c ∈ l.classes, IsName c
  classes_ne : l.classes ≠ []
  bws : ∀ n ∈ l.bws, n < 2 ^ 32
  bws_ne : l.bws ≠ []
  conns : ∀ n ∈ l.conns, n < 2 ^ 32
  conns_ne : l.conns ≠ []

/-- How a line names what its measurement waits for: `0`, or the ids. -/
inductive DepText : Text → List ℕ → Prop
  | first : DepText "0".toList []
  | ids (deps : List ℕ) : DepText (joinWith ',' (deps.map numText)) deps

theorem DepText.eq_nil {dep : Text} {deps : List ℕ} (h : DepText dep deps) (hdep : dep = []) :
    deps = [] := by
  cases h with
  | first => rfl
  | ids =>
    have hflat : ∀ d ∈ deps, False := by
      intro d hd
      have hne : deps.map numText ≠ [] := List.ne_nil_of_mem (List.mem_map_of_mem hd)
      have hall : ∀ t ∈ deps.map numText, t ≠ [] := by
        intro t ht
        obtain ⟨n, -, rfl⟩ := List.mem_map.mp ht
        exact (numText_isName n).ne_nil
      exact joinWith_ne_nil ',' hall hne hdep
    exact List.eq_nil_iff_forall_not_mem.mpr hflat

section Line
variable {l : LineParts}

theorem numTexts_isName (ns : List ℕ) : ∀ t ∈ ns.map numText, IsName t := by
  intro t ht
  obtain ⟨n, -, rfl⟩ := List.mem_map.mp ht
  exact numText_isName n

theorem LineParts.Readable.words (h : l.Readable) : ∀ t ∈ l.words, IsWord t := by
  simp only [LineParts.words, List.forall_mem_cons]
  refine ⟨(numText_isName l.id).toIsWord, h.fp, (numText_isName l.dur).toIsWord,
    joinWith_isWord h.classes h.classes_ne, ?_, ?_, fun t ht => absurd ht List.not_mem_nil⟩
  · exact joinWith_isWord (numTexts_isName _) (by simpa using h.bws_ne)
  · exact joinWith_isWord (numTexts_isName _) (by simpa using h.conns_ne)

theorem LineParts.Readable.foldlM_words (h : l.Readable) :
    l.words.foldlM LineWords.word {} = .ok (l.read 6 []) := by
  have hbws : l.bws.map numText ≠ [] := by simpa using h.bws_ne
  have hconns : l.conns.map numText ≠ [] := by simpa using h.conns_ne
  have hblack : ∀ {t : Text}, IsWord t → t.isEmpty = false := fun ht => by simpa using ht.ne_nil
  have h₀ := (numText_isName l.id).toIsWord
  have h₂ := (numText_isName l.dur).toIsWord
  have h₃ := joinWith_isWord h.classes h.classes_ne
  have h₄ := joinWith_isWord (numTexts_isName l.bws) hbws
  have h₅ := joinWith_isWord (numTexts_isName l.conns) hconns
  simp only [LineParts.words, List.foldlM_cons, List.foldlM_nil, LineWords.word, h₀.trim, h.fp.trim,
    h₂.trim, h₃.trim, h₄.trim, h₅.trim, hblack h₀, hblack h.fp, hblack h₂, hblack h₃, hblack h₄,
    hblack h₅, Bool.false_eq_true, ↓reduceIte, parseU32_numText h.id, parseU32_numText h.dur,
    splitOn_names h.classes h.classes_ne, splitOn_names (numTexts_isName l.bws) hbws,
    splitOn_names (numTexts_isName l.conns) hconns, mapM_parseU32 h.bws, mapM_parseU32 h.conns,
    bind, Except.bind, pure, Except.pure]
  rfl

theorem filter_pos {deps : List ℕ} (h : ∀ d ∈ deps, 0 < d ∧ d < 2 ^ 32) :
    (deps.map UInt32.ofNat).filter (fun i => i > 0) = deps.map UInt32.ofNat := by
  refine List.filter_eq_self.mpr fun i hi => ?_
  obtain ⟨d, hd, rfl⟩ := List.mem_map.mp hi
  obtain ⟨hpos, hlt⟩ := h d hd
  simp only [gt_iff_lt, decide_eq_true_eq, UInt32.lt_iff_toNat_lt, UInt32.toNat_ofNat_of_lt' hlt]
  exact hpos

/-- The seventh word. -/
theorem LineParts.word_dep (l : LineParts) {dep : Text} {deps : List ℕ} (hdep : DepText dep deps)
    (hne : dep ≠ []) (hdeps : ∀ d ∈ deps, 0 < d ∧ d < 2 ^ 32) : IsWord dep ∧
      (l.read 6 []).word dep = .ok (l.read 7 (deps.map UInt32.ofNat)) := by
  cases hdep with
  | first => exact ⟨isWord_iff.mp (by decide), rfl⟩
  | ids =>
    have hd : deps.map numText ≠ [] := by
      intro hd
      rw [hd] at hne
      exact hne rfl
    have hword := joinWith_isWord (numTexts_isName deps) hd
    have hempty : (joinWith ',' (deps.map numText)).isEmpty = false := by simpa using hne
    refine ⟨hword, ?_⟩
    simp only [LineWords.word, hword.trim, hempty, Bool.false_eq_true, ↓reduceIte, LineParts.read,
      splitOn_names (numTexts_isName deps) hd, mapM_parseU32 (fun d hd => (hdeps d hd).2), bind,
      Except.bind, pure, Except.pure, filter_pos hdeps]

theorem LineParts.Readable.seven_words (h : l.Readable) {dep : Text} {deps : List ℕ}
    (hdep : DepText dep deps) (hne : dep ≠ []) (hdeps : ∀ d ∈ deps, 0 < d ∧ d < 2 ^ 32) :
    (∀ t ∈ l.words ++ [dep], IsWord t) ∧
      (l.words ++ [dep]).foldlM LineWords.word {} = .ok (l.read 7 (deps.map UInt32.ofNat)) := by
  obtain ⟨hword, hlast⟩ := l.word_dep hdep hne hdeps
  constructor
  · intro t ht
    rcases List.mem_append.mp ht with ht | ht
    · exact h.words t ht
    · rw [List.mem_singleton.mp ht]
      exact hword
  · rw [List.foldlM_append, h.foldlM_words]
    simp only [bind, Except.bind, List.foldlM_cons, List.foldlM_nil, hlast, pure, Except.pure]

/-- A line of seven words is read back. -/
theorem LineParts.Readable.newFromString_separated (h : l.Readable) {dep s : Text} {deps : List ℕ}
    (hdep : DepText dep deps) (hne : dep ≠ []) (hdeps : ∀ d ∈ deps, 0 < d ∧ d < 2 ^ 32)
    (hs : Separated (· == ' ') (l.words ++ [dep]) s) :
    Sched.newFromString s = (l.read 7 (deps.map UInt32.ofNat)).finish.map some := by
  obtain ⟨hwords, hfold⟩ := h.seven_words hdep hne hdeps
  exact Sched.newFromString_separated hs hwords (fun c => numText_digit) hfold

/-- A line of seven words with single spaces is read back; the last may be empty. -/
theorem LineParts.Readable.newFromString (h : l.Readable) {dep : Text} {deps : List ℕ}
    (hdep : DepText dep deps) (hdeps : ∀ d ∈ deps, 0 < d ∧ d < 2 ^ 32) :
    Sched.newFromString (joinWith ' ' (l.words ++ [dep])) =
      (l.read 7 (deps.map UInt32.ofNat)).finish.map some := by
  by_cases hnil : dep = []
  · -- the line has six words and ends in a blank
    obtain rfl := hdep.eq_nil hnil
    subst hnil
    have hblank : joinWith ' ' (l.words ++ [[]]) = joinWith ' ' l.words ++ [' '] := by
      simp [LineParts.words, joinWith_cons]
    have hs := separated_joinWith h.words [' '] (by simp)
    rw [hblank]
    exact Sched.newFromString_separated (w := l.read 6 []) hs h.words (fun c => numText_digit)
      h.foldlM_words
  · have hs := separated_joinWith (h.seven_words hdep hnil hdeps).1 [] (by simp)
    rw [List.append_nil] at hs
    exact h.newFromString_separated hdep hnil hdeps hs

end Line

/-! The checks at the end of a line. -/

section Checks
variable {w : LineWords} {m : Measurement}

theorem Host.check_iff {h : Host} :
    h.check = .ok () ↔ (h.cls = "bg".toList → h.conns = 1 ∧ h.bw = 125000) := by
  simp only [Host.check, bind_eq_ok, failIf_eq_ok]
  constructor
  · rintro ⟨-, hconns, hbw⟩ hcls
    exact ⟨not_not.mp fun hne => hconns ⟨hcls, hne⟩, not_not.mp fun hne => hbw ⟨hcls, hne⟩⟩
  · intro hbg
    exact ⟨(), fun hbad => hbad.2 (hbg hbad.1).1, fun hbad => hbad.2 (hbg hbad.1).2⟩

/-- The background host rule, on all hosts. -/
theorem forM_check_iff {hosts : List Host} : hosts.forM Host.check = .ok () ↔
    ∀ h ∈ hosts, h.cls = "bg".toList → h.conns = 1 ∧ h.bw = 125000 := by
  induction hosts with
  | nil => exact iff_of_true rfl fun h hh => absurd hh List.not_mem_nil
  | cons h hosts ih =>
    have hcons : (h :: hosts).forM Host.check = (do h.check; hosts.forM Host.check) := rfl
    rw [hcons, bind_eq_ok, List.forall_mem_cons, ← ih, ← Host.check_iff]
    exact ⟨fun ⟨_, hh, hrest⟩ => ⟨hh, hrest⟩, fun ⟨hh, hrest⟩ => ⟨(), hh, hrest⟩⟩

/-- The hosts of a line: its three lists, taken together. -/
def LineWords.hosts (w : LineWords) : List Host :=
  (w.hostClass.zip (w.hostBw.zip w.hostConns)).map fun h => Host.mk h.1 h.2.1 h.2.2

/-- What a line says, if it passes the checks. -/
def LineWords.measurement (w : LineWords) : Measurement :=
  ⟨w.id, w.fp, w.dur, .waiting, w.hosts, w.depends, [], 0⟩

theorem LineWords.finish_iff : w.finish = .ok m ↔ w.id ≠ 0 ∧ w.id ∉ w.depends ∧
    (w.hostClass.length = w.hostBw.length ∧ w.hostClass.length = w.hostConns.length) ∧
    (∀ h ∈ w.hosts, h.cls = "bg".toList → h.conns = 1 ∧ h.bw = 125000) ∧
    (w.hosts.filter fun h => h.cls = "bg".toList).length ≤ 1 ∧ w.measurement = m := by
  have hhosts : (w.hostClass.zip (w.hostBw.zip w.hostConns)).map
      (fun h => Host.mk h.1 h.2.1 h.2.2) = w.hosts := rfl
  simp only [LineWords.finish, hhosts, bind_eq_ok, failIf_eq_ok, pure_eq_ok, not_or, not_not,
    not_lt, ← forM_check_iff]
  constructor
  · rintro ⟨-, hid, -, hself, -, hlen, ⟨⟩, hcheck, -, hone, rfl⟩
    exact ⟨hid, hself, hlen, hcheck, hone, rfl⟩
  · rintro ⟨hid, hself, hlen, hcheck, hone, rfl⟩
    exact ⟨(), hid, (), hself, (), hlen, (), hcheck, (), hone, rfl⟩

end Checks

end Flashflow.Sched
