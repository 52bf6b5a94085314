import Mathlib.Data.List.DropRight
import Flashflow.Library.Indexed
import Flashflow.V3bw.Filter

/-! `trim_newlines` on the array that holds a line. -/
namespace Flashflow
open Program Watch Indexed

/-- Programs on the bytes that `getline` has stored. -/
abbrev LineM := ArrayProg UInt8 Abort

/-- `strlen` -/
def strlen : LineM ℕ := do
  let w ← getState
  whileFuel .diverges (fun i : ℕ => do
    if (← readAt .outOfBounds (i : Int)) = 0 then pure (.leave i)
    else pure (.next (i + 1))) (w.state.length + 1) 0

/-- A turn of the loop of `trim_newlines`. When `len` is 0, `line[len-1]` is in front of the
line. -/
def trimTurn (len : Int) : LineM (Turn Int Unit) := do
  if (← readAt .outOfBounds (len - 1)) = 0x0A then do
    writeAt .outOfBounds (len - 1) 0
    pure (.next (len - 1))
  else pure (.leave ())

/-- `trim_newlines` -/
def trimNewlinesInPlace : LineM Unit := do
  let len ← strlen
  whileFuel .diverges trimTurn (len + 1) len

/-- `t` is the longest start of `s` that does not end in a newline. -/
structure IsTrimmed (s t : Bytes) : Prop where
  isPrefix : t <+: s
  last : t.getLast? ≠ some 0x0A
  longest : ∀ u, u <+: s → u.getLast? ≠ some 0x0A → u.length ≤ t.length

/-- A line that `getline` returns. -/
structure IsLine (line : Bytes) : Prop where
  ne_nil : line ≠ []
  newline : 0x0A ∉ line.dropLast

theorem getlines_eq_singleton {line : Bytes} (h : IsLine line) : getlines line = [line] := by
  induction line with
  | nil => exact absurd rfl h.ne_nil
  | cons b rest ih =>
    cases rest with
    | nil => by_cases hb : b = 0x0A <;> simp [getlines, hb]
    | cons c rest =>
      have hnl := h.newline
      rw [List.dropLast_cons_of_ne_nil (List.cons_ne_nil c rest), List.mem_cons, not_or] at hnl
      rw [getlines, if_neg (Ne.symm hnl.1), ih ⟨List.cons_ne_nil c rest, hnl.2⟩]

theorem isLine_iff {line : Bytes} : IsLine line ↔ ∃ input, line ∈ getlines input := by
  constructor
  · intro h
    exact ⟨line, by simp [getlines_eq_singleton h]⟩
  · rintro ⟨input, h⟩
    obtain ⟨body, hnl, rfl | ⟨rfl, hne⟩⟩ := mem_getlines h
    · exact ⟨by simp, by simpa using hnl⟩
    · exact ⟨hne, fun hmem => hnl (List.mem_of_mem_dropLast hmem)⟩

/-! The loops. -/

section Loops
variable {w : Watched Bytes Access} {n : ℕ} {front text rest : Bytes}
  {E : Abort → Watched Bytes Access → Prop}

theorem wp_strlen (hw : w.state = text ++ 0 :: rest) (h0 : 0 ∉ text) :
    wp strlen (fun len w' => len = text.length ∧ w'.state = w.state ∧
      Adds (UpTo text.length) w w') E w := by
  simp only [strlen, wp_bind, wp_getState]
  apply wp_whileFuel (fun i w' => i ≤ text.length ∧ w'.state = w.state ∧
    Adds (UpTo text.length) w w') (fun i _ => text.length - i)
  · rintro i w' ⟨hi, hstate, hadds⟩
    obtain ⟨b, hb, hzero⟩ : ∃ b, w'.state[i]? = some b ∧ (b = 0 ↔ i = text.length) := by
      rw [hstate, hw]
      rcases Nat.lt_or_eq_of_le hi with hlt | rfl
      · have hget : (text ++ 0 :: rest)[i]? = some text[i] := by
          rw [List.getElem?_append_left hlt, List.getElem?_eq_getElem hlt]
        refine ⟨_, hget, iff_of_false ?_ (Nat.ne_of_lt hlt)⟩
        exact fun hb => h0 (hb ▸ List.getElem_mem hlt)
      · exact ⟨0, by simp, iff_of_true rfl rfl⟩
    rw [wp_bind]
    refine wp_conseq (wp_readAt hb hi) ?_
    rintro _ w'' ⟨rfl, hsame, hread⟩
    have hadds' := trans_of (Adds _) hadds hread
    split
    next hend => exact ⟨hzero.mp hend, hsame.trans hstate, hadds'⟩
    next hne =>
      have hlt := Nat.lt_of_le_of_ne hi fun heq => hne (hzero.mpr heq)
      exact ⟨⟨hlt, hsame.trans hstate, hadds'⟩, by omega⟩
  · simp only [hw, List.length_append, List.length_cons]
    omega
  · exact ⟨Nat.zero_le _, rfl, refl_of (Adds _) _⟩

theorem wp_trimTurn_newline (hw : w.state = front ++ 0x0A :: rest) (hn : front.length ≤ n) :
    wp (trimTurn (front.length + 1 : ℕ)) (fun r w' => r = .next front.length ∧
      w'.state = front ++ 0 :: rest ∧ Adds (UpTo n) w w') E w := by
  have hindex : ((front.length + 1 : ℕ) : Int) - 1 = front.length := by simp
  have hget : w.state[front.length]? = some 0x0A := by simp [hw]
  rw [trimTurn, hindex, wp_bind]
  refine wp_conseq (wp_readAt hget hn) ?_
  rintro _ w₁ ⟨rfl, hsame, hread⟩
  rw [if_pos rfl, wp_bind]
  refine wp_conseq (wp_writeAt (hsame ▸ hget) hn) ?_
  rintro _ w₂ ⟨hset, hwrite⟩
  refine ⟨rfl, ?_, trans_of (Adds _) hread hwrite⟩
  rw [hset, hsame, hw, List.set_append_right _ _ (Nat.le_refl _)]
  simp

theorem wp_trimTurn_stop {b : UInt8} (hb : b ≠ 0x0A) (hw : w.state = front ++ b :: rest)
    (hn : front.length ≤ n) :
    wp (trimTurn (front.length + 1 : ℕ)) (fun r w' => r = .leave () ∧
      w'.state = w.state ∧ Adds (UpTo n) w w') E w := by
  have hindex : ((front.length + 1 : ℕ) : Int) - 1 = front.length := by simp
  have hget : w.state[front.length]? = some b := by simp [hw]
  rw [trimTurn, hindex, wp_bind]
  refine wp_conseq (wp_readAt hget hn) ?_
  rintro _ w₁ ⟨rfl, hsame, hread⟩
  rw [if_neg hb]
  exact ⟨rfl, hsame, hread⟩

/-- The line has been trimmed to nothing. -/
theorem wp_trimTurn_front {Q : Turn Int Unit → Watched Bytes Access → Prop} :
    wp (trimTurn 0) Q (fun e w' => e = .outOfBounds ∧ .read (-1) ∈ w'.seen) w := by
  rw [trimTurn, wp_bind]
  exact wp_readAt_front (by decide)

/-- Of the newlines behind `front` the last ones have been cleared; `len` is what is left. -/
def Trimming (front : Bytes) (m : ℕ) (w : Watched Bytes Access) (len : Int)
    (w' : Watched Bytes Access) : Prop :=
  ∃ k ≤ m, ∃ zeros, len = (front.length + k : ℕ) ∧
    w'.state = front ++ List.replicate k 0x0A ++ 0 :: zeros ∧ Adds (UpTo (front.length + m)) w w'

/-- What has been done when the loop stops at the end of `front`. -/
def Trimmed (front : Bytes) (m : ℕ) (w w' : Watched Bytes Access) : Prop :=
  front ≠ [] ∧ (∃ zeros, w'.state = front ++ 0 :: zeros) ∧ Adds (UpTo (front.length + m)) w w'

/-- The way the loop ends when there is nothing to stop at. -/
def LeftInFront (front : Bytes) (e : Abort) (w' : Watched Bytes Access) : Prop :=
  front = [] ∧ e = .outOfBounds ∧ .read (-1) ∈ w'.seen

theorem Trimming.turn {m : ℕ} {len : Int} {w' : Watched Bytes Access}
    (h : Trimming front m w len w') (hlast : front.getLast? ≠ some 0x0A) : wp (trimTurn len)
      (Turn.Post (fun len' w'' => Trimming front m w len' w'' ∧ len'.toNat < len.toNat)
        fun _ => Trimmed front m w) (LeftInFront front) w' := by
  obtain ⟨k, hk, zeros, rfl, hstate, hadds⟩ := h
  cases k with
  | zero =>
    rcases List.eq_nil_or_concat' front with rfl | ⟨f, b, rfl⟩
    · exact wp_mono wp_trimTurn_front (fun _ _ h => h) fun _ _ he => ⟨rfl, he⟩
    · have hstate' : w'.state = f ++ b :: 0 :: zeros := by simp [hstate]
      have hle : f.length ≤ (f ++ [b]).length + m := by
        rw [List.length_append]
        omega
      have hlen : (f ++ [b]).length + 0 = f.length + 1 := by simp
      rw [hlen]
      refine wp_conseq (wp_trimTurn_stop (by simpa using hlast) hstate' hle) ?_
      rintro _ w'' ⟨rfl, hsame, hread⟩
      refine ⟨by simp, ⟨zeros, ?_⟩, trans_of (Adds _) hadds hread⟩
      rw [hsame, hstate']
      simp
  | succ k =>
    have hstate' : w'.state = (front ++ List.replicate k 0x0A) ++ 0x0A :: 0 :: zeros := by
      rw [hstate, List.replicate_succ']
      simp
    have hle : (front ++ List.replicate k (0x0A : UInt8)).length ≤ front.length + m := by
      rw [List.length_append, List.length_replicate]
      omega
    have hturn := wp_trimTurn_newline (E := LeftInFront front) hstate' hle
    rw [List.length_append, List.length_replicate, Nat.add_assoc] at hturn
    refine wp_conseq hturn ?_
    rintro _ w'' ⟨rfl, hcleared, hused⟩
    refine ⟨⟨k, by omega, 0 :: zeros, rfl, hcleared, trans_of (Adds _) hadds hused⟩, ?_⟩
    simp only [Int.toNat_natCast]
    omega

/-- `trim_newlines` on a text that ends in `m` newlines. -/
theorem wp_trimNewlinesInPlace (m : ℕ) (hlast : front.getLast? ≠ some 0x0A) (h0 : 0 ∉ front)
    (hw : w.state = front ++ List.replicate m 0x0A ++ 0 :: rest) :
    wp trimNewlinesInPlace (fun _ => Trimmed front m w) (LeftInFront front) w := by
  have htext : 0 ∉ front ++ List.replicate m 0x0A := by simp [h0, List.mem_replicate]
  have hlen : (front ++ List.replicate m (0x0A : UInt8)).length = front.length + m := by simp
  rw [trimNewlinesInPlace, wp_bind]
  refine wp_conseq (wp_strlen hw htext) ?_
  rw [hlen]
  rintro _ w₁ ⟨rfl, hsame, hadds⟩
  have hstart : Trimming front m w (front.length + m : ℕ) w₁ :=
    ⟨m, Nat.le_refl m, rest, rfl, hsame.trans hw, hadds⟩
  exact wp_whileFuel (Trimming front m w) (fun len _ => len.toNat)
    (fun _ _ h => h.turn hlast) (Nat.lt_succ_self _) hstart

end Loops

/-! What is left of a line. -/

/-- The newlines at the end of a text. -/
theorem exists_newlines (text : Bytes) : ∃ front m,
    text = front ++ List.replicate m 0x0A ∧ front.getLast? ≠ some 0x0A := by
  have hall : ∀ b ∈ text.rtakeWhile (· == 0x0A), b = 0x0A := by
    intro b hb
    simpa using List.mem_rtakeWhile_imp hb
  refine ⟨text.rdropWhile (· == 0x0A), (text.rtakeWhile (· == 0x0A)).length, ?_, fun hlast => ?_⟩
  · rw [← List.eq_replicate_of_mem hall, List.rdropWhile_append_rtakeWhile]
  · have hne : text.rdropWhile (· == 0x0A) ≠ [] := by
      intro hnil
      rw [hnil] at hlast
      cases hlast
    rw [List.getLast?_eq_some_getLast hne, Option.some.injEq] at hlast
    exact List.rdropWhile_last_not _ text hne (by simp [hlast])

theorem isTrimmed_newlines {front : Bytes} (m : ℕ) (hlast : front.getLast? ≠ some 0x0A) :
    IsTrimmed (front ++ List.replicate m 0x0A) front where
  isPrefix := List.prefix_append _ _
  last := hlast
  longest u hu hulast := by
    by_contra hlong
    obtain ⟨t, rfl⟩ := List.prefix_of_prefix_length_le (List.prefix_append front _) hu (by omega)
    have ht : t <+: List.replicate m 0x0A := (List.prefix_append_right_inj front).mp hu
    have hne : t ≠ [] := by
      rintro rfl
      simp at hlong
    have hmem := ht.subset (List.getLast_mem hne)
    apply hulast
    rw [List.getLast?_append_of_ne_nil _ hne, List.getLast?_eq_some_getLast hne,
      List.eq_of_mem_replicate hmem]

/-- The zero behind the line ends its text, if no other one does. -/
theorem exists_terminator (line : Bytes) : ∃ rest, line ++ [0] = cstr line ++ 0 :: rest := by
  induction line with
  | nil => exact ⟨[], rfl⟩
  | cons b line ih =>
    by_cases hb : b = 0
    · exact ⟨line ++ [0], by simp [hb]⟩
    · obtain ⟨rest, hrest⟩ := ih
      exact ⟨rest, by rw [cstr_cons hb, List.cons_append, hrest, List.cons_append]⟩

/-- The array of a line: its text up to the newlines at the end, these, and what begins with a
zero. -/
theorem exists_front (line : Bytes) : ∃ front m rest,
    line ++ [0] = front ++ List.replicate m 0x0A ++ 0 :: rest ∧
      cstr line = front ++ List.replicate m 0x0A ∧ front.getLast? ≠ some 0x0A ∧ 0 ∉ front := by
  obtain ⟨rest, hrest⟩ := exists_terminator line
  obtain ⟨front, m, htext, hlast⟩ := exists_newlines (cstr line)
  refine ⟨front, m, rest, htext ▸ hrest, htext, hlast, fun h => ?_⟩
  exact zero_not_mem_cstr line (htext ▸ List.mem_append_left _ h)

/-- A line is trimmed as it is to be, within its text. -/
def TrimsInPlace (line : Bytes) : Prop :=
  ∃ w, exec trimNewlinesInPlace ⟨line ++ [0], []⟩ = (.ok (), w) ∧
    (∀ a ∈ w.seen, UpTo (cstr line).length a) ∧ IsTrimmed (cstr line) (cstr w.state)

theorem trimFromEnd_newlines (m : ℕ) (text : Bytes) :
    trimFromEnd (List.replicate m 0x0A ++ text) = trimFromEnd text := by
  induction m with
  | zero => rfl
  | succ m ih =>
    rw [List.replicate_succ, List.cons_append, trimFromEnd, if_pos rfl]
    exact ih

/-- The list version ends as the loop on the array does. -/
theorem wp_trimNewlinesInPlace_eq (line : Bytes) : wp trimNewlinesInPlace
    (fun _ w => trimNewlines line = .ok (cstr w.state))
    (fun e _ => trimNewlines line = .error e) ⟨line ++ [0], []⟩ := by
  obtain ⟨front, m, rest, hline, htext, hlast, h0⟩ := exists_front line
  have hskip : trimNewlines line = trimFromEnd front.reverse := by
    rw [trimNewlines, htext, List.reverse_append, List.reverse_replicate, trimFromEnd_newlines]
  rw [hskip]
  refine wp_mono (wp_trimNewlinesInPlace m hlast h0 hline) ?_ ?_
  · rintro _ w ⟨hne, ⟨zeros, hstate⟩, -⟩
    obtain ⟨f, b, rfl⟩ := (List.eq_nil_or_concat' front).resolve_left hne
    have hb : b ≠ 0x0A := by simpa using hlast
    rw [hstate, cstr_append h0, cstr_zero, List.append_nil]
    simp [trimFromEnd, hb]
  · rintro _ _ ⟨rfl, rfl, -⟩
    rfl

/-- The loop on the array stays within the text if and only if the list version ends well. -/
theorem trimsInPlace_iff {line : Bytes} :
    TrimsInPlace line ↔ ∃ text, trimNewlines line = .ok text := by
  have hsame := wp_trimNewlinesInPlace_eq line
  constructor
  · rintro ⟨w, hexec, -⟩
    exact ⟨_, wp_returns hsame hexec⟩
  · rintro ⟨text, htrim⟩
    obtain ⟨front, m, rest, hline, htext, hlast, h0⟩ := exists_front line
    have hwp := wp_trimNewlinesInPlace m hlast h0 (w := ⟨line ++ [0], []⟩) hline
    have hlen : (cstr line).length = front.length + m := by simp [htext]
    rcases hexec : exec trimNewlinesInPlace ⟨line ++ [0], []⟩ with ⟨e | ⟨⟩, w⟩
    · rw [wp_aborts hsame hexec] at htrim
      cases htrim
    · obtain ⟨-, ⟨zeros, hstate⟩, us, hseen, hus⟩ := wp_returns hwp hexec
      refine ⟨w, hexec, fun a ha => ?_, ?_⟩
      · rw [hseen, List.nil_append] at ha
        exact hlen ▸ hus a ha
      · rw [hstate, cstr_append h0, cstr_zero, List.append_nil, htext]
        exact isTrimmed_newlines m hlast

/-- There has to be a byte to stop at. -/
theorem trimFromEnd_ok_iff {line : Bytes} :
    (∃ text, trimFromEnd line = .ok text) ↔ ∃ b ∈ line, b ≠ 0x0A := by
  induction line with
  | nil => simp [trimFromEnd]
  | cons b rest ih =>
    by_cases hb : b = 0x0A
    · simp [trimFromEnd, hb, ih]
    · simp [trimFromEnd, hb]

/-- Of the lines of a file those are trimmed as they are to be that do not begin with a newline or
with a zero. -/
theorem trimNewlines_in_range {line : Bytes} (h : IsLine line) : TrimsInPlace line ↔
    line.head? ≠ some 0x0A ∧ line.head? ≠ some 0 := by
  obtain ⟨b, rest, rfl⟩ := List.exists_cons_of_ne_nil h.ne_nil
  simp only [List.head?_cons, ne_eq, Option.some.injEq]
  rw [trimsInPlace_iff, trimNewlines, trimFromEnd_ok_iff]
  simp only [List.mem_reverse]
  constructor
  · rintro ⟨c, hc, hne⟩
    refine ⟨?_, ?_⟩
    · rintro rfl
      cases rest with
      | nil =>
        have hblank : c = 0x0A := by simpa [cstr] using hc
        exact hne hblank
      | cons d rest =>
        have hnl := h.newline
        rw [List.dropLast_cons_of_ne_nil (List.cons_ne_nil d rest)] at hnl
        exact hnl List.mem_cons_self
    · rintro rfl
      simp at hc
  · rintro ⟨hb, h0⟩
    exact ⟨b, by simp [cstr_cons h0], hb⟩

theorem trimNewlines_in_range_word : TrimsInPlace (bytes "word\n") :=
  (trimNewlines_in_range (isLine_iff.mpr ⟨bytes "word\n", by decide +kernel⟩)).mpr
    (by decide +kernel)

theorem not_trimsInPlace {line : Bytes} {e : Abort} {w : Watched Bytes Access}
    (h : exec trimNewlinesInPlace ⟨line ++ [0], []⟩ = (.error e, w)) : ¬ TrimsInPlace line := by
  rintro ⟨w', hexec, -⟩
  rw [h] at hexec
  cases hexec

/-- On a blank line, and on one that begins with a zero, the byte in front of the line is read. -/
theorem trimNewlines_out_of_range :
    (IsLine [0x0A] ∧ ¬ TrimsInPlace [0x0A] ∧
      exec trimNewlinesInPlace ⟨[0x0A] ++ [0], []⟩ = (.error .outOfBounds,
        ⟨[0, 0], [.read 0, .read 1, .read 0, .write 0, .read (-1)]⟩)) ∧
    IsLine [0, 0x0A] ∧ ¬ TrimsInPlace [0, 0x0A] ∧
      exec trimNewlinesInPlace ⟨[0, 0x0A] ++ [0], []⟩ = (.error .outOfBounds,
        ⟨[0, 0x0A, 0], [.read 0, .read (-1)]⟩) := by
  have hblank : exec trimNewlinesInPlace ⟨[0x0A] ++ [0], []⟩ = (.error .outOfBounds,
      ⟨[0, 0], [.read 0, .read 1, .read 0, .write 0, .read (-1)]⟩) := rfl
  have hzero : exec trimNewlinesInPlace ⟨[0, 0x0A] ++ [0], []⟩ = (.error .outOfBounds,
      ⟨[0, 0x0A, 0], [.read 0, .read (-1)]⟩) := rfl
  exact ⟨⟨isLine_iff.mpr ⟨[0x0A], by decide⟩, not_trimsInPlace hblank, hblank⟩,
    isLine_iff.mpr ⟨[0, 0x0A], by decide⟩, not_trimsInPlace hzero, hzero⟩

end Flashflow
