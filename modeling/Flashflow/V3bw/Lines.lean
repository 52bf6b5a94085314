import Flashflow.Torclient.Output
import Flashflow.V3bw.Reader

/-! How the reader of `v3bw.c` takes apart a line that `tc_output_result` has written. -/
namespace Flashflow

/-! Words without separators. -/

/-- A string that `%s` can write into a word of a line. -/
structure Plain (b : Bytes) : Prop where
  no_space : 0x20 ∉ b
  no_newline : 0x0A ∉ b
  no_zero : 0 ∉ b

theorem Plain.append {a b : Bytes} (ha : Plain a) (hb : Plain b) : Plain (a ++ b) :=
  ⟨by simp [ha.no_space, hb.no_space], by simp [ha.no_newline, hb.no_newline],
    by simp [ha.no_zero, hb.no_zero]⟩

theorem plain_of_forall {b : Bytes} (h : ∀ c ∈ b, 0x20 < c) : Plain b := by
  refine ⟨fun hb => ?_, fun hb => ?_, fun hb => ?_⟩ <;>
    exact absurd (h _ hb) (by decide)

theorem isDigitByte_iff {b : UInt8} : isDigitByte b = true ↔ 48 ≤ b.toNat ∧ b.toNat ≤ 57 := by
  simp [isDigitByte, UInt8.le_iff_toNat_le]

theorem isDigitByte_decimal {n : ℕ} {b : UInt8} (h : b ∈ decimal n) : isDigitByte b = true := by
  obtain ⟨c, hc, rfl⟩ := List.mem_map.mp h
  have hd := Nat.isDigit_of_mem_toDigits (by decide) (by decide) hc
  simp only [Char.isDigit, Bool.and_eq_true, decide_eq_true_eq, ge_iff_le,
    UInt32.le_iff_toNat_le] at hd
  obtain ⟨hlo, hhi⟩ : 48 ≤ c.toNat ∧ c.toNat ≤ 57 := hd
  rw [isDigitByte_iff]
  simp only [Nat.toUInt8, UInt8.toNat_ofNat']
  omega

theorem plain_of_digits {b : Bytes} (h : ∀ c ∈ b, isDigitByte c = true) : Plain b := by
  refine plain_of_forall fun c hc => ?_
  obtain ⟨hlo, -⟩ := isDigitByte_iff.mp (h c hc)
  rw [UInt8.lt_iff_toNat_lt]
  exact Nat.lt_of_lt_of_le (by decide) hlo

theorem plain_decimal (n : ℕ) : Plain (decimal n) := plain_of_digits fun _ => isDigitByte_decimal

theorem plain_decimalInt (n : Int) : Plain (decimalInt n) := by
  have hminus : Plain (bytes "-") := plain_of_forall (by decide +kernel)
  unfold decimalInt
  split
  · exact hminus.append (plain_decimal _)
  · exact plain_decimal _

theorem plain_decimal6 (n : ℕ) : Plain (decimal6 n) := by
  have hzeros : Plain (List.replicate (6 - (decimal n).length) 0x30) :=
    plain_of_forall fun c hc => by
      rw [List.eq_of_mem_replicate hc]
      decide
  exact hzeros.append (plain_decimal n)

theorem plain_of_isFp {fp : Bytes} (h : isFp fp = true) : Plain fp := by
  refine plain_of_forall fun c hc => ?_
  simp only [isFp, Bool.and_eq_true, List.all_eq_true] at h
  have hchar := h.2 c hc
  simp only [Bool.not_eq_true', Bool.or_eq_false_iff, decide_eq_false_iff_not] at hchar
  exact UInt8.lt_of_lt_of_le (by decide) (UInt8.not_lt.mp hchar.1.1)

/-! The pieces of a line. -/

theorem splitAtMost_cons {w : Bytes} (hw : 0x20 ∉ w) (n : ℕ) (rest : Bytes) :
    splitAtMost (n + 1) (w ++ 0x20 :: rest) = w :: splitAtMost n rest := by
  have hall : ∀ b ∈ w, decide (b ≠ 0x20) = true := fun b hb => by
    rw [decide_eq_true_eq]
    exact fun h => hw (h ▸ hb)
  rw [splitAtMost, List.dropWhile_append_of_pos hall, List.takeWhile_append_of_pos hall]
  simp

/-- The first piece is the front of the text. -/
theorem splitAtMost_head (n : ℕ) (s : Bytes) : ∃ w ws, splitAtMost n s = w :: ws ∧ w <+: s := by
  cases n with
  | zero => exact ⟨s, [], rfl, List.prefix_refl s⟩
  | succ n =>
    rw [splitAtMost]
    split
    · exact ⟨s, [], rfl, List.prefix_refl s⟩
    · exact ⟨_, _, rfl, List.takeWhile_prefix _⟩

theorem getlines_append {body : Bytes} (h : 0x0A ∉ body) (rest : Bytes) :
    getlines (body ++ 0x0A :: rest) = (body ++ [0x0A]) :: getlines rest := by
  induction body with
  | nil => simp [getlines]
  | cons b body ih =>
    obtain ⟨hb, hbody⟩ : 0x0A ≠ b ∧ 0x0A ∉ body := by simpa using h
    simp [getlines, Ne.symm hb, ih hbody]

theorem trimNewlines_line {body : Bytes} (hne : body ≠ []) (hnl : 0x0A ∉ body) (h0 : 0 ∉ body) :
    trimNewlines (body ++ [0x0A]) = .ok body := by
  obtain ⟨front, b, rfl⟩ := (List.eq_nil_or_concat body).resolve_left hne
  have hb : b ≠ 0x0A := by
    rintro rfl
    simp at hnl
  rw [trimNewlines, cstr_of_not_mem (by simpa using h0)]
  simp [trimFromEnd, hb]

/-! A written line, read again. -/

theorem bytes_space : bytes " " = [0x20] := by decide

theorem bytes_newline : bytes "\n" = [0x0A] := by decide

/-- The words in front of the token, up to the client. -/
def ResultLine.stamp (l : ResultLine) : Bytes :=
  decimalInt l.time.tvSec.toInt ++ bytes "." ++ decimal6 l.time.tvUsec.val

def ResultLine.client (l : ResultLine) : Bytes :=
  l.cls ++ bytes ";" ++ l.host ++ bytes ":" ++ l.port

def ResultLine.text (l : ResultLine) : Bytes :=
  l.stamp ++ 0x20 :: (decimal l.mId.toNat ++ 0x20 :: (l.fp ++ 0x20 ::
    (l.client ++ 0x20 :: l.token)))

theorem ResultLine.render_eq (l : ResultLine) : l.render = l.text ++ [0x0A] := by
  simp [render, text, stamp, client, bytes_space, bytes_newline]

/-- A line whose fields are words and whose token is a piece of a line. -/
structure ResultLine.Plain (l : ResultLine) : Prop where
  fp : Flashflow.Plain l.fp
  cls : Flashflow.Plain l.cls
  host : Flashflow.Plain l.host
  port : Flashflow.Plain l.port
  no_newline : 0x0A ∉ l.token
  no_zero : 0 ∉ l.token

theorem ResultLine.plain_stamp (l : ResultLine) : Flashflow.Plain l.stamp :=
  ((plain_decimalInt _).append (plain_of_forall (by decide +kernel))).append (plain_decimal6 _)

theorem ResultLine.Plain.client {l : ResultLine} (h : l.Plain) : Flashflow.Plain l.client :=
  (((h.cls.append (plain_of_forall (by decide +kernel))).append h.host).append
    (plain_of_forall (by decide +kernel))).append h.port

/-- The reader sees the four words before the token, and the token in up to five pieces. -/
theorem readLine_render {l : ResultLine} (h : l.Plain) : readLine l.render =
    .ok (match splitAtMost 4 l.token with
      | [code, kind, ts, bwdown, _] => acceptWords l.fp code kind ts bwdown
      | _ => none) := by
  have hstamp := l.plain_stamp
  have hid := plain_decimal l.mId.toNat
  have hclient := h.client
  have htrim : trimNewlines l.render = .ok l.text := by
    rw [l.render_eq]
    refine trimNewlines_line (by simp [ResultLine.text]) ?_ ?_
    · simp [ResultLine.text, hstamp.no_newline, hid.no_newline, h.fp.no_newline,
        hclient.no_newline, h.no_newline]
    · simp [ResultLine.text, hstamp.no_zero, hid.no_zero, h.fp.no_zero, hclient.no_zero, h.no_zero]
  have hsplit : gStrsplit 9 l.text = l.stamp :: decimal l.mId.toNat :: l.fp :: l.client ::
      splitAtMost 4 l.token := by
    rw [gStrsplit, if_neg (by simp [ResultLine.text]), ResultLine.text,
      splitAtMost_cons hstamp.no_space, splitAtMost_cons hid.no_space,
      splitAtMost_cons h.fp.no_space, splitAtMost_cons hclient.no_space]
  simp only [readLine, htrim, hsplit, bind, Except.bind]
  rcases splitAtMost 4 l.token with _ | ⟨_, _ | ⟨_, _ | ⟨_, _ | ⟨_, _ | ⟨_, _ | _⟩⟩⟩⟩⟩ <;> rfl

/-- Reading the lines that were written, one by one. -/
theorem readLines_render {ls : List ResultLine} {f : ResultLine → Option Triple}
    (h : ∀ l ∈ ls, l.Plain ∧ readLine l.render = .ok (f l)) :
    readLines (ls.flatMap ResultLine.render) = .ok (ls.map f) := by
  induction ls with
  | nil => rfl
  | cons l ls ih =>
    obtain ⟨⟨hl, hread⟩, hrest⟩ := List.forall_mem_cons.mp h
    have hnl : 0x0A ∉ l.text := by
      simp [ResultLine.text, l.plain_stamp.no_newline, (plain_decimal l.mId.toNat).no_newline,
        hl.fp.no_newline, hl.client.no_newline, hl.no_newline]
    have hfile : (l :: ls).flatMap ResultLine.render =
        l.text ++ 0x0A :: ls.flatMap ResultLine.render := by
      simp [l.render_eq]
    have hrec := ih hrest
    unfold readLines at hrec ⊢
    rw [hfile, getlines_append hnl, ← l.render_eq, List.mapM_cons, hread, hrec]
    rfl

end Flashflow
