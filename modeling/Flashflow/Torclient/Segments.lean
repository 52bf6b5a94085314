import Flashflow.Torclient.Output

/-! The results of one client over several reads. `tc_output_result` keeps nothing between two
calls, so the result file depends on where the stream is cut. -/
namespace Flashflow
open Outcome Tokens

/-- The successive calls for one client, with the time of each call and what `recv` gives it. The
main loop makes them while the client is measuring. -/
def outputChunks (mId : UInt32) (fp : Bytes) :
    List (Timeval × Bytes) → Meta → Except Abort (List ResultLine × Meta)
  | [], x => pure ([], x)
  | (t, got) :: rest, x =>
    if x.state = .measuring then do
      let (_, lines, x) ← tcOutputResult mId fp (some t) (some got) x
      let (more, x) ← outputChunks mId fp rest x
      pure (lines ++ more, x)
    else pure ([], x)

/-! One call. -/

/-- One turn of the trimming loop. -/
theorem trimTail_newline {b : UInt8} (hb : isNewline b = true) (front zeros : Bytes) :
    trimTail (front ++ [b]).length (front ++ [b] ++ zeros) =
      trimTail front.length (front ++ 0 :: zeros) := by
  have hget : (front ++ [b] ++ zeros)[front.length]? = some b := by simp
  have hset : (front ++ [b] ++ zeros).set front.length 0 = front ++ 0 :: zeros := by
    rw [List.append_assoc, List.set_append_right _ _ (Nat.le_refl _)]
    simp
  rw [List.length_append, List.length_singleton, trimTail, hget]
  simp only [hb, ↓reduceIte, hset]

theorem trimTail_body {body nls : Bytes} (zeros : Bytes) (hne : body ≠ [])
    (hlast : ∀ b, body.getLast? = some b → isNewline b = false)
    (hnls : ∀ b ∈ nls, isNewline b = true) :
    trimTail (body ++ nls).length (body ++ nls ++ zeros) =
      .ok (body ++ List.replicate nls.length 0 ++ zeros) := by
  induction nls using List.reverseRecOn generalizing zeros with
  | nil =>
    obtain ⟨body, b, rfl⟩ := (List.eq_nil_or_concat body).resolve_left hne
    have hb := hlast b (by simp)
    simp [trimTail, hb]
  | append_singleton nls b ih =>
    rw [← List.append_assoc, trimTail_newline (hnls b (by simp)),
      ih _ fun c hc => hnls c (by simp [hc])]
    simp [List.replicate_succ']

theorem trimTail_blank {nls : Bytes} (zeros : Bytes) (hnls : ∀ b ∈ nls, isNewline b = true) :
    trimTail nls.length (nls ++ zeros) = .error .outOfBounds := by
  induction nls using List.reverseRecOn generalizing zeros with
  | nil => rfl
  | append_singleton nls b ih =>
    rw [trimTail_newline (hnls b (by simp))]
    exact ih _ fun c hc => hnls c (by simp [hc])

theorem doneResp_clean : ∀ b ∈ doneResp, isNewline b = false := by decide +kernel

/-- The end marker is in the text where it is in a token. -/
theorem doneResp_infix_iff {text : Bytes} :
    doneResp <:+: text ↔ ∃ t ∈ resultTokens text, doneResp <:+: t :=
  infix_iff_exists (by decide) doneResp_clean

/-- A text up to its last byte that is no newline. -/
theorem exists_body {text : Bytes} (h : ∃ b ∈ text, isNewline b = false) : ∃ body nls,
    text = body ++ nls ∧ body ≠ [] ∧ (∀ b, body.getLast? = some b → isNewline b = false) ∧
    ∀ b ∈ nls, isNewline b = true := by
  induction text using List.reverseRecOn with
  | nil => simp at h
  | append_singleton text b ih =>
    cases hb : isNewline b with
    | false => exact ⟨text ++ [b], [], by simp, by simp, by simp [hb], by simp⟩
    | true =>
      obtain ⟨body, nls, rfl, hne, hlast, hnls⟩ := ih (by simpa [hb] using h)
      refine ⟨body, nls ++ [b], by simp, hne, hlast, fun c hc => ?_⟩
      rcases List.mem_append.mp hc with hc | hc
      · exact hnls c hc
      · rw [List.mem_singleton.mp hc, hb]

theorem newlines_no_zero {nls : Bytes} (hnls : ∀ b ∈ nls, isNewline b = true) : 0 ∉ nls :=
  fun h => absurd (hnls 0 h) (by decide)

/-- Trimming the newlines at the end changes no token. -/
theorem resultTokens_trimmed (body : Bytes) {nls : Bytes} (hnls : ∀ b ∈ nls, isNewline b = true) :
    resultTokens (cstr (body ++ List.replicate nls.length 0 ++ [0])) =
      resultTokens (cstr (body ++ nls)) := by
  have hzeros : List.replicate nls.length (0 : UInt8) ++ [0] =
      0 :: List.replicate nls.length 0 := by
    rw [← List.replicate_succ', List.replicate_succ]
  rw [List.append_assoc, hzeros]
  by_cases hzero : 0 ∈ body
  · rw [cstr_append_of_mem hzero, cstr_append_of_mem hzero]
  · have hcut : CutAt isNewline body nls := .inr fun b hb => hnls b (List.mem_of_head? hb)
    rw [cstr_append hzero, cstr_zero, List.append_nil, cstr_append hzero,
      cstr_of_not_mem (newlines_no_zero hnls), resultTokens, resultTokens, tokens_append hcut,
      tokens_eq_nil_iff.mpr hnls, List.append_nil]

section
variable {mId : UInt32} {fp : Bytes} {t : Timeval} {got : Bytes} {x : Meta}

/-- A call that reads something other than newlines. -/
theorem tcOutputResult_eq (hst : x.state = .measuring) (hlen : got.length < readBufLen)
    (hgot : ∃ b ∈ got, isNewline b = false) :
    tcOutputResult mId fp (some t) (some got) x =
      .ok (true, (resultTokens (cstr got)).map (resultLine mId fp t x),
        if doneResp <:+: cstr got then { x with state := .done } else x) := by
  obtain ⟨body, nls, rfl, hne, hlast, hnls⟩ := exists_body hgot
  have hallow : x.state.allows .done = true := by rw [hst]; rfl
  have htrim := trimTail_body [0] hne hlast hnls
  have htokens := resultTokens_trimmed body hnls
  have hdone : doneResp <:+: cstr (body ++ List.replicate nls.length 0 ++ [0]) ↔
      doneResp <:+: cstr (body ++ nls) := by
    rw [doneResp_infix_iff, htokens, ← doneResp_infix_iff]
  have hcons : body ++ nls ≠ [] := by simp [hne]
  obtain ⟨b, rest, hcons⟩ := List.exists_cons_of_ne_nil hcons
  rw [hcons] at htrim htokens hdone hlen ⊢
  simp only [tcOutputResult, failIf, if_neg (Nat.not_le_of_lt hlen), htrim, htokens, hdone, bind,
    Except.bind, tcChangeState_eq hallow]
  split <;> rfl

/-- A call that reads newlines only runs off the front of the buffer. -/
theorem tcOutputResult_blank (hne : got ≠ []) (hlen : got.length < readBufLen)
    (hgot : ∀ b ∈ got, isNewline b = true) :
    tcOutputResult mId fp (some t) (some got) x = .error .outOfBounds := by
  have htrim := trimTail_blank [0] hgot
  obtain ⟨b, rest, rfl⟩ := List.exists_cons_of_ne_nil hne
  simp only [tcOutputResult, failIf, if_neg (Nat.not_le_of_lt hlen), htrim, bind, Except.bind]

/-- What a call writes, if it ends. -/
def resultLines (mId : UInt32) (fp : Bytes) (time : Option Timeval) (recv : Option Bytes)
    (x : Meta) : List ResultLine :=
  match time, recv with
  | some t, some got => (resultTokens (cstr got)).map (resultLine mId fp t x)
  | _, _ => []

/-- What a call that ends has done. -/
theorem tcOutputResult_ok {time : Option Timeval} {recv : Option Bytes} {ok : Bool}
    {lines : List ResultLine} {y : Meta} (hst : x.state = .measuring)
    (h : tcOutputResult mId fp time recv x = .ok (ok, lines, y)) :
    lines = resultLines mId fp time recv x ∧
      ((time = none ∨ recv = none) ∧ ok = false ∧ y = x ∨
        ok = true ∧ time.isSome = true ∧ ∃ got, recv = some got ∧
          y = if got = [] ∨ doneResp <:+: cstr got then { x with state := .done } else x) := by
  rcases time with _ | t
  · cases h
    exact ⟨rfl, .inl ⟨.inl rfl, rfl, rfl⟩⟩
  rcases recv with _ | got
  · cases h
    exact ⟨rfl, .inl ⟨.inr rfl, rfl, rfl⟩⟩
  by_cases hnil : got = []
  · subst hnil
    have hallow : x.state.allows .done = true := by rw [hst]; rfl
    simp only [tcOutputResult, tcChangeState_eq hallow] at h
    cases h
    exact ⟨rfl, .inr ⟨rfl, rfl, [], rfl, (if_pos (.inl rfl)).symm⟩⟩
  have hlen : got.length < readBufLen := by
    by_contra hlong
    obtain ⟨b, rest, rfl⟩ := List.exists_cons_of_ne_nil hnil
    simp only [tcOutputResult, bind_eq_ok, failIf_eq_ok] at h
    obtain ⟨-, hshort, -⟩ := h
    exact hshort (not_lt.mp hlong)
  by_cases hgot : ∃ b ∈ got, isNewline b = false
  · rw [tcOutputResult_eq hst hlen hgot] at h
    cases h
    exact ⟨rfl, .inr ⟨rfl, rfl, got, rfl, by simp only [hnil, false_or]⟩⟩
  · have hblank : ∀ b ∈ got, isNewline b = true := by simpa using hgot
    rw [tcOutputResult_blank hnil hlen hblank] at h
    cases h

/-! All calls for one client. -/

/-- The tokens that are written for the reads `cs`, and whether the end marker was seen; `none` if a
read has newlines only. -/
def collected : List Bytes → Option (List Bytes × Bool)
  | [] => some ([], false)
  | c :: cs =>
    if c.all isNewline then none
    else if doneResp <:+: cstr c then some (resultTokens (cstr c), true)
    else (collected cs).map fun r => (resultTokens (cstr c) ++ r.1, r.2)

variable (mId fp) in
theorem outputChunks_eq {chunks : List (Timeval × Bytes)} (hst : x.state = .measuring)
    (hchunks : ∀ c ∈ chunks, c.2 ≠ [] ∧ c.2.length < readBufLen) :
    (outputChunks mId fp chunks x).map (fun r => (r.1.map ResultLine.token, r.2)) =
      (collected (chunks.map Prod.snd)).elim (.error .outOfBounds) fun r =>
        .ok (r.1, if r.2 then { x with state := .done } else x) := by
  induction chunks with
  | nil => rfl
  | cons c chunks ih =>
    obtain ⟨t, got⟩ := c
    obtain ⟨⟨hne, hlen⟩, hrest⟩ := List.forall_mem_cons.mp hchunks
    have hrec := ih hrest
    rw [outputChunks, if_pos hst, List.map_cons, collected]
    by_cases hblank : got.all isNewline = true
    · rw [tcOutputResult_blank hne hlen (List.all_eq_true.mp hblank), if_pos hblank]
      rfl
    rw [if_neg hblank, tcOutputResult_eq hst hlen (by simpa using hblank)]
    by_cases hdone : doneResp <:+: cstr got
    · -- the client is done, so nothing more is read
      have hstop : outputChunks mId fp chunks { x with state := .done } =
          .ok ([], { x with state := .done }) := by
        cases chunks <;> simp [outputChunks, pure, Except.pure]
      simp only [hdone, ↓reduceIte, bind, Except.bind, hstop]
      simp [pure, Except.pure, Except.map, Function.comp_def, resultLine]
    · simp only [hdone, ↓reduceIte, bind, Except.bind]
      cases hout : outputChunks mId fp chunks x with
      | error e =>
        cases hcol : collected (chunks.map Prod.snd) with
        | none => simpa [hout, hcol, Except.map] using hrec
        | some r => simp [hout, hcol, Except.map] at hrec
      | ok r =>
        cases hcol : collected (chunks.map Prod.snd) with
        | none => simp [hout, hcol, Except.map] at hrec
        | some r' =>
          obtain ⟨hts, hx⟩ : r.1.map ResultLine.token = r'.1 ∧
              r.2 = if r'.2 then { x with state := .done } else x := by
            simpa [hout, hcol, Except.map] using hrec
          simp [pure, Except.pure, Except.map, ← hts, hx, Function.comp_def, resultLine]

end

/-! Which ways to cut a stream do no harm. -/

/-- Every read up to the first one with the end marker has something other than newlines and no
zero, the cuts between these reads are next to a newline, and only newlines follow. -/
def Aligned : List Bytes → Prop
  | [] => False
  | c :: cs => (∃ b ∈ c, isNewline b = false) ∧ 0 ∉ c ∧
    if doneResp <:+: c then ∀ b ∈ cs.flatten, isNewline b = true
    else CutAt isNewline c cs.flatten ∧ Aligned cs

/-- How many bytes of a text are no newlines. -/
def textSize (text : Bytes) : ℕ := (text.filter fun b => !isNewline b).length

@[simp] theorem textSize_append (a b : Bytes) : textSize (a ++ b) = textSize a + textSize b := by
  simp [textSize]

theorem length_flatten_tokens (text : Bytes) :
    (resultTokens text).flatten.length = textSize text := by
  rw [resultTokens, flatten_tokens, textSize]

theorem textSize_eq_zero {text : Bytes} : textSize text = 0 ↔ ∀ b ∈ text, isNewline b = true := by
  simp [textSize, List.filter_eq_nil_iff]

theorem resultTokens_eq_nil {text : Bytes} : resultTokens text = [] ↔ textSize text = 0 :=
  tokens_eq_nil_iff.trans textSize_eq_zero.symm

/-- The part of a read that is not seen starts with a zero. -/
theorem cstr_eq_or {c : Bytes} : cstr c = c ∧ 0 ∉ c ∨ textSize (cstr c) < textSize c ∧ 0 ∈ c := by
  by_cases h : 0 ∈ c
  · obtain ⟨pre, post, rfl, hpre⟩ := List.eq_append_cons_of_mem h
    refine .inr ⟨?_, h⟩
    have hzero : textSize (0 :: post) = textSize post + 1 := by simp [textSize, isNewline]
    rw [cstr_append hpre, cstr_zero, List.append_nil, textSize_append, hzero]
    omega
  · exact .inl ⟨cstr_of_not_mem h, h⟩

/-- Written bytes are bytes of the stream. -/
theorem length_collected_le {cs : List Bytes} {ts : List Bytes} {ended : Bool}
    (h : collected cs = some (ts, ended)) : ts.flatten.length ≤ textSize cs.flatten := by
  induction cs generalizing ts ended with
  | nil =>
    obtain ⟨rfl, -⟩ : [] = ts ∧ false = ended := by simpa [collected] using h
    simp
  | cons c cs ih =>
    have hc : textSize (cstr c) ≤ textSize c := ((List.takeWhile_sublist _).filter _).length_le
    rw [List.flatten_cons, textSize_append]
    rw [collected] at h
    split at h
    · cases h
    split at h
    · obtain ⟨rfl, -⟩ : resultTokens (cstr c) = ts ∧ true = ended := by simpa using h
      rw [length_flatten_tokens]
      omega
    · obtain ⟨⟨ts', e'⟩, hcol, hr⟩ := Option.map_eq_some_iff.mp h
      obtain ⟨rfl, -⟩ : resultTokens (cstr c) ++ ts' = ts ∧ e' = ended := by simpa using hr
      rw [List.flatten_append, List.length_append, length_flatten_tokens]
      have hrec := ih hcol
      omega

/-- If no byte is lost, cuts can only add tokens. -/
theorem length_tokens_le_collected {cs : List Bytes} {ts : List Bytes} {ended : Bool}
    (h : collected cs = some (ts, ended)) (hall : textSize cs.flatten ≤ ts.flatten.length) :
    (resultTokens cs.flatten).length ≤ ts.length := by
  induction cs generalizing ts ended with
  | nil => simp [resultTokens]
  | cons c cs ih =>
    have hcut : (resultTokens (c ++ cs.flatten)).length ≤
        (resultTokens c).length + (resultTokens cs.flatten).length := length_tokens_append_le _ _
    rw [List.flatten_cons, textSize_append] at hall
    rw [List.flatten_cons]
    rw [collected] at h
    split at h
    · cases h
    split at h
    · obtain ⟨rfl, -⟩ : resultTokens (cstr c) = ts ∧ true = ended := by simpa using h
      rw [length_flatten_tokens] at hall
      rcases cstr_eq_or (c := c) with ⟨hc, -⟩ | ⟨hc, -⟩
      · have hrest : resultTokens cs.flatten = [] :=
          resultTokens_eq_nil.mpr (by rw [hc] at hall; omega)
        rw [hrest] at hcut
        simpa [hc] using hcut
      · omega
    · obtain ⟨⟨ts', e'⟩, hcol, hr⟩ := Option.map_eq_some_iff.mp h
      obtain ⟨rfl, -⟩ : resultTokens (cstr c) ++ ts' = ts ∧ e' = ended := by simpa using hr
      have hle := length_collected_le hcol
      rw [List.flatten_append, List.length_append, length_flatten_tokens] at hall
      rcases cstr_eq_or (c := c) with ⟨hc, -⟩ | ⟨hc, -⟩
      · rw [hc] at hall ⊢
        have hrec := ih hcol (by omega)
        rw [List.length_append]
        omega
      · omega

/-- A cut inside a token leaves one token too many. -/
theorem collected_cut {c : Bytes} {cs ts : List Bytes} {ended : Bool}
    (h : collected cs = some (ts, ended)) (hcut : ¬ CutAt isNewline c cs.flatten) :
    resultTokens c ++ ts ≠ resultTokens (c ++ cs.flatten) := by
  intro happ
  have hsize := congrArg (fun ts => ts.flatten.length) happ
  simp only [List.flatten_append, List.length_append, length_flatten_tokens,
    textSize_append] at hsize
  have hle := length_tokens_le_collected h (by omega)
  have hlen := congrArg List.length happ
  have hmore : (resultTokens (c ++ cs.flatten)).length + 1 =
      (resultTokens c).length + (resultTokens cs.flatten).length := length_tokens_append hcut
  rw [List.length_append] at hlen
  omega

/-- What is behind a zero is lost. -/
theorem collected_zero {c : Bytes} {cs ts : List Bytes} {ended : Bool}
    (hlt : textSize (cstr c) < textSize c) (h : collected (c :: cs) = some (ts, ended)) :
    ts ≠ resultTokens (c ++ cs.flatten) := by
  rintro rfl
  rw [collected] at h
  split at h
  · cases h
  split at h
  · have hsize := congrArg (fun r => (r.map fun r => r.1.flatten.length)) h
    simp only [Option.map_some, length_flatten_tokens, textSize_append,
      Option.some.injEq] at hsize
    omega
  · obtain ⟨⟨ts, ended⟩, hcol, hr⟩ := Option.map_eq_some_iff.mp h
    have hle := length_collected_le hcol
    have hsize := congrArg (fun r => r.1.flatten.length) hr
    simp only [List.flatten_append, List.length_append, length_flatten_tokens,
      textSize_append] at hsize
    omega

/-- The reads give the pieces of the whole stream and the end marker exactly if they are aligned. -/
theorem collected_iff_aligned {cs : List Bytes} :
    collected cs = some (resultTokens cs.flatten, true) ↔ Aligned cs := by
  induction cs with
  | nil => simp [collected, Aligned]
  | cons c cs ih =>
    rw [collected, Aligned, List.flatten_cons]
    by_cases hblank : c.all isNewline = true
    · have hno : ¬ ∃ b ∈ c, isNewline b = false := by
        rintro ⟨b, hb, hnl⟩
        rw [List.all_eq_true.mp hblank b hb] at hnl
        cases hnl
      simp [hblank, hno]
    rw [if_neg hblank]
    have hex : ∃ b ∈ c, isNewline b = false := by simpa using hblank
    simp only [hex, true_and]
    rcases cstr_eq_or (c := c) with ⟨hc, hzero⟩ | ⟨hc, hzero⟩
    · rw [hc]
      simp only [hzero, not_false_eq_true, true_and]
      by_cases hdone : doneResp <:+: c
      · simp only [hdone, ↓reduceIte, Option.some.injEq, Prod.mk.injEq, and_true]
        constructor
        · intro h
          have hsize := congrArg (fun ts => ts.flatten.length) h
          simp only [length_flatten_tokens, textSize_append] at hsize
          exact textSize_eq_zero.mp (by omega)
        · intro h
          have hcut : CutAt isNewline c cs.flatten := .inr fun b hb => h b (List.mem_of_head? hb)
          rw [resultTokens, resultTokens, tokens_append hcut, tokens_eq_nil_iff.mpr h,
            List.append_nil]
      · simp only [hdone, ↓reduceIte, Option.map_eq_some_iff, Prod.mk.injEq, Prod.exists]
        constructor
        · rintro ⟨ts, ended, hcol, happ, rfl⟩
          have hcut : CutAt isNewline c cs.flatten := by
            by_contra hno
            exact collected_cut hcol hno happ
          rw [resultTokens, resultTokens, tokens_append hcut, List.append_cancel_left_eq] at happ
          subst happ
          exact ⟨hcut, ih.mp hcol⟩
        · rintro ⟨hcut, hal⟩
          exact ⟨_, _, ih.mpr hal, (tokens_append hcut).symm, rfl⟩
    · simp only [hzero, not_true_eq_false, false_and, iff_false]
      intro h
      have hcol : collected (c :: cs) = some (resultTokens (c ++ cs.flatten), true) := by
        rw [collected, if_neg hblank, h]
      exact collected_zero hc hcol rfl

/-- Cut points matter. The results of a stream of lines that ends with the end marker are written
line by line, and the client is done, exactly if the reads are aligned with the lines. -/
theorem stream_written_iff {mId : UInt32} {fp : Bytes} {x : Meta} {chunks : List (Timeval × Bytes)}
    {lines : List Bytes} (hst : x.state = .measuring)
    (hchunks : ∀ c ∈ chunks, c.2 ≠ [] ∧ c.2.length < readBufLen)
    (hstream : Separated isNewline (lines ++ [doneResp]) (chunks.map Prod.snd).flatten) :
    (∃ written x', outputChunks mId fp chunks x = .ok (written, x') ∧
      written.map ResultLine.token = lines ++ [doneResp] ∧ x'.state = .done) ↔
    Aligned (chunks.map Prod.snd) := by
  have heq := outputChunks_eq mId fp hst hchunks
  rw [← collected_iff_aligned, resultTokens, hstream.tokens_eq]
  constructor
  · rintro ⟨written, x', hok, htokens, hdone⟩
    rw [hok] at heq
    cases hcol : collected (chunks.map Prod.snd) with
    | none => simp [hcol, Except.map] at heq
    | some r =>
      obtain ⟨hts, hx⟩ : written.map ResultLine.token = r.1 ∧
          x' = if r.2 then { x with state := .done } else x := by
        simpa [hcol, Except.map] using heq
      have hended : r.2 = true := by
        by_contra hno
        rw [if_neg hno] at hx
        rw [hx, hst] at hdone
        cases hdone
      rw [← htokens, hts, ← hended]
  · intro hcol
    rw [hcol] at heq
    cases hout : outputChunks mId fp chunks x with
    | error e => simp [hout, Except.map] at heq
    | ok r =>
      obtain ⟨hts, hx⟩ : r.1.map ResultLine.token = lines ++ [doneResp] ∧
          r.2 = { x with state := .done } := by
        simpa [hout, Except.map] using heq
      exact ⟨r.1, r.2, rfl, hts, by rw [hx]⟩

def measuringClient : Meta :=
  ⟨3, .measuring, bytes "m", bytes "10.0.0.1", bytes "9051", some (bytes "pw"), false, 1⟩

theorem separated_end : Separated isNewline [doneResp] (bytes "650 SPEEDTESTING END\r\n") := by
  have htext : bytes "650 SPEEDTESTING END\r\n" = [] ++ (doneResp ++ bytes "\r\n") := by
    decide +kernel
  rw [htext]
  refine .cons nofun ?_ doneResp_clean ?_ (.nil ?_)
  all_goals decide +kernel

/-- The same stream in one read and in two: cut inside the end marker, the line is written as two,
and the client is not done. -/
theorem end_marker_cut_in_two : ∃ stream whole cut,
    Separated isNewline [doneResp] stream ∧
    (∀ c ∈ whole ++ cut, c.2 ≠ [] ∧ c.2.length < readBufLen) ∧
    (whole.map Prod.snd).flatten = stream ∧ (cut.map Prod.snd).flatten = stream ∧
    (outputChunks 1 (bytes "AA") whole measuringClient).map
      (fun r => (r.1.map ResultLine.token, r.2.state)) = .ok ([doneResp], .done) ∧
    (outputChunks 1 (bytes "AA") cut measuringClient).map
      (fun r => (r.1.map ResultLine.token, r.2.state)) =
      .ok ([bytes "650 SPEEDTESTING E", bytes "ND"], .measuring) :=
  ⟨bytes "650 SPEEDTESTING END\r\n", [(⟨0, 0⟩, bytes "650 SPEEDTESTING END\r\n")],
    [(⟨0, 0⟩, bytes "650 SPEEDTESTING E"), (⟨1, 0⟩, bytes "ND\r\n")], separated_end,
    by decide +kernel, rfl, by decide +kernel, by decide +kernel, by decide +kernel⟩

theorem stream_written_in_two_reads : ∃ written x',
    outputChunks 1 (bytes "AA") [(⟨0, 0⟩, doneResp), (⟨1, 0⟩, bytes "\r\n")] measuringClient =
      .ok (written, x') ∧
    written.map ResultLine.token = [] ++ [doneResp] ∧ x'.state = .done := by
  have hstream : bytes "650 SPEEDTESTING END\r\n" = [doneResp, bytes "\r\n"].flatten := by
    decide +kernel
  have haligned : Aligned [doneResp, bytes "\r\n"] := by
    refine ⟨by decide +kernel, by decide +kernel, ?_⟩
    rw [if_pos (List.infix_refl doneResp)]
    decide +kernel
  exact (stream_written_iff rfl (by decide +kernel) (hstream ▸ separated_end)).mpr haligned

end Flashflow
