import Flashflow.Torclient.Segments
import Flashflow.V3bw.Lines

/-! The reader of `v3bw.c` undoes the writer of `torclient.c`: of the lines that
`tc_output_result` writes, exactly those with results are accepted, with the values they had. -/
namespace Flashflow
open Tokens

/-! Messages of a measuring client. -/

/-- A nonempty string of decimal digits of a value that fits in a `long`. -/
structure Decimal (d : Bytes) : Prop where
  ne_nil : d ≠ []
  digits : ∀ b ∈ d, isDigitByte b = true
  fits : (decimalValue d : Int) ≤ longMax

theorem asNonnegativeLong_decimal {d : Bytes} (h : Decimal d) :
    asNonnegativeLong d = decimalValue d := by
  obtain ⟨b, rest, hd⟩ := List.exists_cons_of_ne_nil h.ne_nil
  have hb := h.digits b (hd ▸ List.mem_cons_self)
  obtain ⟨hlo, hhi⟩ := isDigitByte_iff.mp hb
  have hspace : isSpace b = false := by
    simp only [isSpace, UInt8.le_iff_toNat_le, Bool.or_eq_false_iff, Bool.and_eq_false_iff,
      decide_eq_false_iff_not]
    refine ⟨fun h => ?_, .inr ?_⟩
    · rw [h] at hlo
      exact absurd hlo (by decide)
    · have : (0x0D : UInt8).toNat = 13 := rfl
      omega
  have hminus : b ≠ 0x2D := by
    rintro rfl
    exact absurd hlo (by decide)
  have hplus : b ≠ 0x2B := by
    rintro rfl
    exact absurd hlo (by decide)
  have htake : d.takeWhile isDigitByte = d := by
    have happ : (d ++ []).takeWhile isDigitByte = d ++ [].takeWhile _ :=
      List.takeWhile_append_of_pos h.digits
    simpa using happ
  have hdrop : d.dropWhile isDigitByte = [] := by
    have happ : (d ++ []).dropWhile isDigitByte = [].dropWhile _ :=
      List.dropWhile_append_of_pos h.digits
    simpa using happ
  have hskip : d.dropWhile isSpace = d := by
    rw [hd, List.dropWhile_cons_of_neg (by simp [hspace])]
  have hlow : longMin ≤ (decimalValue d : Int) := by
    have : longMin ≤ 0 := by decide
    omega
  have hstrtol : strtol d = ((decimalValue d : Int), []) := by
    have hsign : optionalSign d = (false, d) := by
      rw [hd]
      simp [optionalSign, hminus, hplus]
    simp only [strtol, hskip, hsign, htake, hdrop, h.ne_nil, ↓reduceIte, Bool.false_eq_true,
      Int.min_eq_right h.fits, Int.max_eq_right hlow]
  simp [asNonnegativeLong, h.ne_nil, hstrtol]

/-- A line of a measuring client. -/
inductive Message where
  | result (ts bwdown bwup : Bytes)
  | started
  | ended
  | other (line : Bytes)
  deriving DecidableEq

def Message.text : Message → Bytes
  | .result ts bwdown bwup =>
    bytes "650" ++ 0x20 :: (bytes "SPEEDTESTING" ++ 0x20 ::
      (ts ++ 0x20 :: (bwdown ++ 0x20 :: bwup)))
  | .started => bytes "650 SPEEDTESTING BEGIN"
  | .ended => doneResp
  | .other line => line

def Message.Valid : Message → Prop
  | .result ts bwdown bwup => Decimal ts ∧ Decimal bwdown ∧ 0x20 ∉ bwup
  | .other line => ¬ bytes "650 SPEEDTESTING" <:+: line ∧ ¬ bytes "650" <+: line
  | _ => True

/-- What the reader is to make of a message. -/
def Message.triple (fp : Bytes) : Message → Option Triple
  | .result ts bwdown _ => some ⟨fp, decimalValue ts, decimalValue bwdown⟩
  | _ => none

theorem acceptWords_result {fp ts bwdown : Bytes} (hfp : isFp fp = true) (hts : Decimal ts)
    (hbw : Decimal bwdown) : acceptWords fp (bytes "650") (bytes "SPEEDTESTING") ts bwdown =
      some ⟨fp, decimalValue ts, decimalValue bwdown⟩ := by
  have hcode : (bytes "650").take 3 = bytes "650" := by decide
  have hkind : (bytes "SPEEDTESTING").take 12 = bytes "SPEEDTESTING" := by decide
  have h₁ : ¬ (decimalValue ts : Int) < 0 := by omega
  have h₂ : ¬ (decimalValue bwdown : Int) < 0 := by omega
  simp only [acceptWords, hcode, hkind, hfp, asNonnegativeLong_decimal hts,
    asNonnegativeLong_decimal hbw, h₁, h₂, ne_eq, not_true_eq_false, ↓reduceIte]

/-- The pieces of a message are accepted if it is a result, with its values. -/
theorem acceptWords_message {fp : Bytes} (hfp : isFp fp = true) {m : Message} (hm : m.Valid) :
    (match splitAtMost 4 m.text with
      | [code, kind, ts, bwdown, _] => acceptWords fp code kind ts bwdown
      | _ => none) = m.triple fp := by
  cases m with
  | result ts bwdown bwup =>
    obtain ⟨hts, hbw, -⟩ := hm
    have hcode : 0x20 ∉ bytes "650" := by decide
    have hkind : 0x20 ∉ bytes "SPEEDTESTING" := by decide
    rw [Message.text, splitAtMost_cons hcode, splitAtMost_cons hkind,
      splitAtMost_cons (plain_of_digits hts.digits).no_space,
      splitAtMost_cons (plain_of_digits hbw.digits).no_space]
    exact acceptWords_result hfp hts hbw
  | started =>
    have hsplit : splitAtMost 4 (bytes "650 SPEEDTESTING BEGIN") =
        [bytes "650", bytes "SPEEDTESTING", bytes "BEGIN"] := by decide
    simp only [Message.text, hsplit, Message.triple]
  | ended =>
    have hsplit : splitAtMost 4 doneResp =
        [bytes "650", bytes "SPEEDTESTING", bytes "END"] := by decide
    simp only [Message.text, hsplit, Message.triple]
  | other line =>
    obtain ⟨w, ws, hsplit, hw⟩ := splitAtMost_head 4 line
    have hcode : w.take 3 ≠ bytes "650" := fun h =>
      hm.2 ((h ▸ List.take_prefix 3 w).trans hw)
    have htriple : (Message.other line).triple fp = none := rfl
    rw [Message.text, hsplit, htriple]
    split
    next heq =>
      obtain ⟨rfl, -⟩ := List.cons.inj heq
      simp [acceptWords, hcode]
    · rfl

/-- Digits are none of the words of the end marker. -/
theorem Decimal.head_ne {d : Bytes} (h : Decimal d) {b : UInt8} {w : Bytes} (hd : d = b :: w) :
    isDigitByte b = true := h.digits b (hd ▸ List.mem_cons_self)

/-- The words of a text, with all spaces cut. -/
def words (text : Bytes) : List Bytes := text.splitOnP (· = 0x20)

theorem words_of_no_space {w : Bytes} (hw : 0x20 ∉ w) : words w = [w] := by
  refine List.splitOnP_eq_singleton fun b hb => ?_
  rw [decide_eq_false_iff_not]
  exact fun h => hw (h ▸ hb)

theorem words_append_space (v w : Bytes) : words (v ++ 0x20 :: w) = words v ++ words w :=
  List.splitOnP_append_cons _ _ rfl

theorem words_result {ts bwdown bwup : Bytes} (hm : (Message.result ts bwdown bwup).Valid) :
    words (Message.result ts bwdown bwup).text =
      [bytes "650", bytes "SPEEDTESTING", ts, bwdown, bwup] := by
  obtain ⟨hts, hbw, hup⟩ := hm
  have hcode : 0x20 ∉ bytes "650" := by decide
  have hkind : 0x20 ∉ bytes "SPEEDTESTING" := by decide
  simp only [Message.text, words_append_space, words_of_no_space hcode, words_of_no_space hkind,
    words_of_no_space (plain_of_digits hts.digits).no_space,
    words_of_no_space (plain_of_digits hbw.digits).no_space, words_of_no_space hup]
  rfl

/-- Around the end marker are its second word and one that starts with an `E`. -/
theorem words_doneResp (front back : Bytes) : ∃ w ws, words (front ++ doneResp ++ back) =
    words (front ++ bytes "650") ++ bytes "SPEEDTESTING" :: (0x45 :: w) :: ws := by
  have hkind : 0x20 ∉ bytes "SPEEDTESTING" := by decide
  have hdone : doneResp =
      bytes "650" ++ 0x20 :: (bytes "SPEEDTESTING" ++ 0x20 :: 0x45 :: bytes "ND") := by decide
  have happ : front ++ doneResp ++ back = (front ++ bytes "650") ++ 0x20 ::
      (bytes "SPEEDTESTING" ++ 0x20 :: 0x45 :: (bytes "ND" ++ back)) := by
    simp [hdone]
  obtain ⟨w, ws, hw⟩ := List.exists_cons_of_ne_nil
    (List.splitOnP_ne_nil (· = 0x20) (bytes "ND" ++ back))
  have hend : words (0x45 :: (bytes "ND" ++ back)) = (0x45 :: w) :: ws := by
    rw [words, List.splitOnP_cons_eq_if_modifyHead, if_neg (by decide), hw]
    rfl
  refine ⟨w, ws, ?_⟩
  rw [happ, words_append_space, words_append_space, words_of_no_space hkind, hend]
  rfl

/-- The end marker is in no other message. -/
theorem not_doneResp_infix {m : Message} (hm : m.Valid) (hne : m ≠ .ended) :
    ¬ doneResp <:+: m.text := by
  cases m with
  | started => decide
  | ended => exact absurd rfl hne
  | other line =>
    have hpre : bytes "650 SPEEDTESTING" <+: doneResp := by decide
    exact fun h => hm.1 (hpre.isInfix.trans h)
  | result ts bwdown bwup =>
    rintro ⟨front, back, htext⟩
    obtain ⟨w, ws, hwords⟩ := words_doneResp front back
    rw [htext, words_result hm] at hwords
    obtain ⟨hts, hbw, -⟩ := hm
    have hkindne {d : Bytes} (h : Decimal d) : bytes "SPEEDTESTING" ≠ d := fun he =>
      absurd (h.head_ne (b := 0x53) (w := bytes "PEEDTESTING") (he ▸ by decide)) (by decide)
    have hne' : words (front ++ bytes "650") ≠ [] := List.splitOnP_ne_nil _ _
    -- the place of the marker among the words: a number would be one of its words
    generalize words (front ++ bytes "650") = before at hwords hne'
    rcases before with _ | ⟨a, _ | ⟨b, _ | ⟨c, _ | ⟨d, l⟩⟩⟩⟩
    · exact hne' rfl
    · simp only [List.cons_append, List.nil_append, List.cons.injEq] at hwords
      exact absurd (hts.head_ne hwords.2.2.1) (by decide)
    · simp only [List.cons_append, List.nil_append, List.cons.injEq] at hwords
      exact hkindne hts hwords.2.2.1.symm
    · simp only [List.cons_append, List.nil_append, List.cons.injEq] at hwords
      exact hkindne hbw hwords.2.2.2.1.symm
    · have hlen := congrArg List.length hwords
      simp at hlen
      omega

/-! Whole reads. -/

/-- One read: what `recv` gives, and the lines it is made of. -/
structure Read where
  time : Timeval
  got : Bytes
  messages : List Message

structure Read.Valid (r : Read) : Prop where
  short : r.got.length < readBufLen
  no_zero : 0 ∉ r.got
  lines : Separated isNewline (r.messages.map Message.text) r.got
  nonempty : r.messages ≠ []
  valid : ∀ m ∈ r.messages, m.Valid

section
variable {mId : UInt32} {fp : Bytes} {x : Meta} {r : Read} {reads : List Read}

theorem Read.Valid.tokens (h : r.Valid) : resultTokens r.got = r.messages.map Message.text :=
  h.lines.tokens_eq

/-- The lines one read is written as. -/
def Read.written (mId : UInt32) (fp : Bytes) (x : Meta) (r : Read) : List ResultLine :=
  r.messages.map fun m => resultLine mId fp r.time x m.text

theorem tcOutputResult_read (h : r.Valid) (hst : x.state = .measuring) :
    tcOutputResult mId fp (some r.time) (some r.got) x = .ok (true, r.written mId fp x,
      if .ended ∈ r.messages then { x with state := .done } else x) := by
  have hgot : ∃ b ∈ r.got, isNewline b = false := by
    by_contra hno
    have hblank : ∀ b ∈ r.got, isNewline b = true := by simpa using hno
    have htokens := h.tokens
    rw [resultTokens, tokens_eq_nil_iff.mpr hblank, eq_comm, List.map_eq_nil_iff] at htokens
    exact h.nonempty htokens
  have hdone : doneResp <:+: r.got ↔ .ended ∈ r.messages := by
    rw [doneResp_infix_iff, h.tokens]
    constructor
    · rintro ⟨t, ht, hin⟩
      obtain ⟨m, hm, rfl⟩ := List.mem_map.mp ht
      by_contra hno
      exact not_doneResp_infix (h.valid m hm) (fun he => hno (he ▸ hm)) hin
    · exact fun hm => ⟨doneResp, List.mem_map_of_mem hm, List.infix_refl _⟩
  rw [tcOutputResult_eq hst h.short hgot, cstr_of_not_mem h.no_zero, h.tokens, List.map_map]
  simp only [hdone, Read.written, Function.comp_def]

variable (mId fp) in
/-- If the end comes last, every read is written. -/
theorem outputChunks_reads (hst : x.state = .measuring) (hreads : ∀ r ∈ reads, r.Valid)
    (hend : ∀ m ∈ (reads.flatMap Read.messages).dropLast, m ≠ .ended) : ∃ x',
    outputChunks mId fp (reads.map fun r => (r.time, r.got)) x =
      .ok (reads.flatMap (Read.written mId fp x), x') := by
  induction reads with
  | nil => exact ⟨x, rfl⟩
  | cons r rest ih =>
    obtain ⟨hr, hrest⟩ := List.forall_mem_cons.mp hreads
    rw [List.map_cons, outputChunks, if_pos hst, tcOutputResult_read hr hst]
    cases rest with
    | nil =>
      exact ⟨if .ended ∈ r.messages then { x with state := .done } else x, by
        simp [outputChunks, pure, Except.pure, bind, Except.bind]⟩
    | cons r' rest =>
      have hne : (r' :: rest).flatMap Read.messages ≠ [] := by
        simp [(hrest r' List.mem_cons_self).nonempty]
      rw [List.flatMap_cons, List.dropLast_append_of_ne_nil hne] at hend
      have hno : Message.ended ∉ r.messages := fun hm => hend _ (List.mem_append_left _ hm) rfl
      obtain ⟨x', hx'⟩ := ih hrest fun m hm => hend m (List.mem_append_right _ hm)
      refine ⟨x', ?_⟩
      simp only [hno, ↓reduceIte, bind, Except.bind, hx']
      rfl

variable (reads) in
/-- Reading undoes writing: of the lines written for whole reads of a measuring client, exactly the
results are accepted, in order and with the fingerprint and the values they had. -/
theorem written_results_read_back (hfp : isFp fp = true) (hst : x.state = .measuring)
    (hcls : Plain x.cls) (hhost : Plain x.host) (hport : Plain x.port)
    (hreads : ∀ r ∈ reads, r.Valid)
    (hend : ∀ m ∈ (reads.flatMap Read.messages).dropLast, m ≠ .ended) :
    ∃ lines x', outputChunks mId fp (reads.map fun r => (r.time, r.got)) x = .ok (lines, x') ∧
      readLines (lines.flatMap ResultLine.render) =
        .ok ((reads.flatMap Read.messages).map (Message.triple fp)) := by
  obtain ⟨x', hout⟩ := outputChunks_reads mId fp hst hreads hend
  refine ⟨_, x', hout, ?_⟩
  let accepted (l : ResultLine) : Option Triple := match splitAtMost 4 l.token with
    | [code, kind, ts, bwdown, _] => acceptWords l.fp code kind ts bwdown
    | _ => none
  have hplain : ∀ l ∈ reads.flatMap (Read.written mId fp x), l.Plain := by
    intro l hl
    obtain ⟨r, hr, hl⟩ := List.mem_flatMap.mp hl
    obtain ⟨m, hm, rfl⟩ := List.mem_map.mp hl
    have hv := hreads r hr
    have htoken : m.text ∈ resultTokens r.got := hv.tokens ▸ List.mem_map_of_mem hm
    obtain ⟨-, hclean, hin⟩ := mem_tokens htoken
    exact ⟨plain_of_isFp hfp, hcls, hhost, hport, fun h => absurd (hclean _ h) (by decide),
      fun h => hv.no_zero (hin.subset h)⟩
  rw [readLines_render (f := accepted) fun l hl => ⟨hplain l hl, readLine_render (hplain l hl)⟩,
    List.map_flatMap, List.map_flatMap]
  refine congrArg Except.ok (List.flatMap_congr fun r hr => ?_)
  rw [Read.written, List.map_map]
  exact List.map_congr_left fun m hm => acceptWords_message hfp ((hreads r hr).valid m hm)

end

/-- A read with the four kinds of lines. -/
def exampleRead : Read where
  time := default
  got := [] ++ (bytes "650 SPEEDTESTING BEGIN" ++ (bytes "\r\n" ++
    ((Message.result (bytes "1554") (bytes "1000") (bytes "2000")).text ++ (bytes "\n" ++
    (bytes "250 OK" ++ (bytes "\r\n" ++ (doneResp ++ bytes "\r\n")))))))
  messages := [.started, .result (bytes "1554") (bytes "1000") (bytes "2000"),
    .other (bytes "250 OK"), .ended]

theorem exampleRead_valid : exampleRead.Valid where
  short := by decide +kernel
  no_zero := by decide +kernel
  lines := by
    refine .cons nofun ?_ ?_ ?_ (.cons ?_ ?_ ?_ ?_
      (.cons ?_ ?_ ?_ ?_ (.cons ?_ ?_ ?_ ?_ (.nil ?_))))
    all_goals decide +kernel
  nonempty := List.cons_ne_nil _ _
  valid := by
    simp only [exampleRead, List.forall_mem_cons, Message.Valid, true_and]
    refine ⟨⟨⟨?_, ?_, ?_⟩, ⟨?_, ?_, ?_⟩, ?_⟩, ?_, fun _ h => absurd h List.not_mem_nil⟩
    all_goals decide +kernel

theorem exampleRead_read_back : ∃ lines x',
    outputChunks 7 (List.replicate 40 0x41) [(exampleRead.time, exampleRead.got)] measuringClient =
      .ok (lines, x') ∧
    readLines (lines.flatMap ResultLine.render) =
      .ok [none, some ⟨List.replicate 40 0x41, 1554, 1000⟩, none, none] :=
  written_results_read_back [exampleRead] (by decide +kernel) rfl
    (plain_of_forall (by decide +kernel))
    (plain_of_forall (by decide +kernel)) (plain_of_forall (by decide +kernel))
    (List.forall_mem_singleton.mpr exampleRead_valid) (by decide +kernel)

/-! The names that `tc_client_file_read` yields can be written. -/

theorem plain_of_lineTokens {line t : Bytes} (h : t ∈ lineTokens line) : Plain t := by
  obtain ⟨-, hclean, hin⟩ := mem_tokens h
  refine ⟨fun hb => absurd (hclean _ hb) (by decide), fun hb => absurd (hclean _ hb) (by decide),
    fun hb => zero_not_mem_cstr line (hin.subset hb)⟩

theorem tcClientFileRead_plain {content : Bytes} {xs : List Meta}
    (h : tcClientFileRead content = .ok xs) :
    ∀ x ∈ xs, Plain x.cls ∧ Plain x.host ∧ Plain x.port := by
  refine readClients_invariant
    (motive := fun _ xs => ∀ x ∈ xs, Plain x.cls ∧ Plain x.host ∧ Plain x.port) (by simp)
    (fun _ line cls host port pw xs htokens hxs => ?_) h
  refine List.forall_mem_cons.mpr ⟨⟨?_, ?_, ?_⟩, hxs⟩
  all_goals exact @plain_of_lineTokens line _ (by simp [htokens])

end Flashflow
