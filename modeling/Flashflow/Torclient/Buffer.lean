import Flashflow.Torclient.Control
import Flashflow.Torclient.Segments

/-! The local receive buffers. A reply handler compares a fixed number of bytes, however many were
received, and the cell behind what was received may not exist. -/
namespace Flashflow
open Outcome

/-- What a handler compares: the received bytes, and where they are too few the stale ones. -/
theorem buffer_eq (got : Bytes) (stale : ℕ → UInt8) (n : ℕ) :
    (List.range n).map (fun i => got.getD i (stale i)) =
      got.take n ++ (List.range' got.length (n - got.length)).map stale := by
  apply List.ext_getElem
  · simp
    omega
  · intro i hi hi'
    have hin : i < n := by simpa using hi
    rw [List.getElem_map, List.getElem_range]
    by_cases hlt : i < got.length
    · have htake : i < (got.take n).length := by simp; omega
      rw [List.getElem_append_left htake, List.getElem_take, List.getD_eq_getElem?_getD,
        List.getElem?_eq_getElem hlt, Option.getD_some]
    · have hge : got.length ≤ i := Nat.le_of_not_lt hlt
      have htake : (got.take n).length ≤ i := by simp; omega
      rw [List.getElem_append_right htake, List.getD_eq_getElem?_getD,
        List.getElem?_eq_none hge, Option.getD_none]
      simp only [List.getElem_map, List.getElem_range', List.length_take]
      congr 1
      omega

section Handlers
variable {waits good : CsmState} {goodResp got : Bytes} {recv : Option Bytes} {stale : ℕ → UInt8}
  {x : Meta}

/-- The handler `f` confirms the phase on the reply and on nothing else. -/
structure OnlyReceived (good : CsmState) (goodResp : Bytes)
    (f : Option Bytes → (ℕ → UInt8) → Meta → Except Abort (Bool × Meta)) (recv : Option Bytes)
    (stale : ℕ → UInt8) (x : Meta) : Prop where
  confirms : (∃ got, recv = some got ∧ goodResp <+: got) →
    f recv stale x = .ok (true, { x with state := good })
  refuses : (¬ ∃ got, recv = some got ∧ goodResp <+: got) → f recv stale x = .ok (false, x)

/-- The stale bytes do not complete a short read to the reply, and a read that fills the buffer
begins with the reply. -/
structure Unspoilt (goodResp : Bytes) (recv : Option Bytes) (stale : ℕ → UInt8) : Prop where
  short : ∀ got, recv = some got → got.length < goodResp.length →
    got ++ (List.range' got.length (goodResp.length - got.length)).map stale ≠ goodResp
  full : ∀ got, recv = some got → readBufLen ≤ got.length → goodResp <+: got

/-- A read that is long enough is judged by its own bytes. -/
theorem buffer_matches_iff (hlen : goodResp.length ≤ got.length) :
    (List.range goodResp.length).map (fun i => got.getD i (stale i)) = goodResp ↔
      goodResp <+: got := by
  rw [buffer_eq, Nat.sub_eq_zero_of_le hlen, List.prefix_iff_eq_take]
  simp [eq_comm]

theorem buffer_short (hlen : got.length < goodResp.length) :
    (List.range goodResp.length).map (fun i => got.getD i (stale i)) =
      got ++ (List.range' got.length (goodResp.length - got.length)).map stale := by
  rw [buffer_eq, List.take_of_length_le (Nat.le_of_lt hlen)]

theorem awaitReply_none (hx : x.state = waits) :
    awaitReply waits good goodResp none stale x = .ok (false, x) := by
  simp [awaitReply, tcAssertState_eq hx, bind, Except.bind, pure, Except.pure]

theorem awaitReply_match (hx : x.state = waits) (hallow : waits.allows good = true)
    (hbuf : (List.range goodResp.length).map (fun i => got.getD i (stale i)) = goodResp) :
    awaitReply waits good goodResp (some got) stale x = .ok (true, { x with state := good }) := by
  have hx' : x.state.allows good = true := hx ▸ hallow
  have hno : ¬ (List.range goodResp.length).map (fun i => got.getD i (stale i)) ≠ goodResp :=
    not_not_intro hbuf
  simp only [awaitReply, tcAssertState_eq hx, bind, Except.bind, if_neg hno, tcChangeState_eq hx',
    pure, Except.pure]

theorem awaitReply_mismatch (hx : x.state = waits)
    (hbuf : (List.range goodResp.length).map (fun i => got.getD i (stale i)) ≠ goodResp) :
    awaitReply waits good goodResp (some got) stale x =
      if readBufLen ≤ got.length then .error .outOfBounds else .ok (false, x) := by
  simp only [awaitReply, tcAssertState_eq hx, bind, Except.bind, if_pos hbuf, failIf]
  by_cases hfull : readBufLen ≤ got.length
  · rw [if_pos hfull, if_pos hfull]
  · rw [if_neg hfull, if_neg hfull]
    rfl

/-- A handler goes by what was received exactly when no stale byte and no missing cell gets in its
way. -/
theorem awaitReply_onlyReceived_iff (hx : x.state = waits) (hallow : waits.allows good = true) :
    OnlyReceived good goodResp (awaitReply waits good goodResp) recv stale x ↔
      Unspoilt goodResp recv stale := by
  cases recv with
  | none =>
    constructor
    · intro _
      constructor
      · rintro _ ⟨⟩
      · rintro _ ⟨⟩
    · intro _
      constructor
      · rintro ⟨_, ⟨⟩, _⟩
      · exact fun _ => awaitReply_none hx
  | some got =>
    have hsome : (∃ g, some got = some g ∧ goodResp <+: g) ↔ goodResp <+: got := by simp
    constructor
    · intro h
      refine ⟨?_, ?_⟩
      · rintro _ ⟨⟩ hlt hfill
        have hnot : ¬ goodResp <+: got := fun hp => by
          have hle := hp.length_le
          omega
        have hno := h.refuses (hsome.not.mpr hnot)
        rw [awaitReply_match hx hallow ((buffer_short hlt).trans hfill)] at hno
        cases hno
      · rintro _ ⟨⟩ hfull
        by_contra hnot
        have hno := h.refuses (hsome.not.mpr hnot)
        by_cases hbuf : (List.range goodResp.length).map (fun i => got.getD i (stale i)) = goodResp
        · rw [awaitReply_match hx hallow hbuf] at hno
          cases hno
        · rw [awaitReply_mismatch hx hbuf, if_pos hfull] at hno
          cases hno
    · intro h
      refine ⟨fun hyes => ?_, fun hno => ?_⟩
      · have hp := hsome.mp hyes
        exact awaitReply_match hx hallow ((buffer_matches_iff hp.length_le).mpr hp)
      · have hp := hsome.not.mp hno
        have hbuf : (List.range goodResp.length).map (fun i => got.getD i (stale i)) ≠
            goodResp := by
          intro hbuf
          rcases Nat.lt_or_ge got.length goodResp.length with hlt | hge
          · exact h.short got rfl hlt ((buffer_short hlt).symm.trans hbuf)
          · exact hp ((buffer_matches_iff hge).mp hbuf)
        have hroom : ¬ readBufLen ≤ got.length := fun hfull => hp (h.full got rfl hfull)
        rw [awaitReply_mismatch hx hbuf, if_neg hroom]

/-- A handler stays inside its buffer exactly when there is a cell left or the reply is there. -/
theorem awaitReply_in_range_iff (hx : x.state = waits) (hallow : waits.allows good = true)
    (hresp : goodResp.length ≤ readBufLen) :
    awaitReply waits good goodResp (some got) stale x ≠ .error .outOfBounds ↔
      got.length < readBufLen ∨ goodResp <+: got := by
  by_cases hbuf : (List.range goodResp.length).map (fun i => got.getD i (stale i)) = goodResp
  · rw [awaitReply_match hx hallow hbuf]
    simp only [ne_eq, reduceCtorEq, not_false_eq_true, true_iff]
    rcases Nat.lt_or_ge got.length readBufLen with hlt | hge
    · exact .inl hlt
    · exact .inr ((buffer_matches_iff (Nat.le_trans hresp hge)).mp hbuf)
  · rw [awaitReply_mismatch hx hbuf]
    split
    next hfull =>
      simp only [ne_eq, not_true_eq_false, false_iff, not_or]
      refine ⟨Nat.not_lt_of_le hfull, fun hp => hbuf ?_⟩
      exact (buffer_matches_iff hp.length_le).mpr hp
    next hfull => simpa using .inl (Nat.lt_of_not_le hfull)

end Handlers

/-- For each of the three handlers, when only what was received can confirm its phase. -/
theorem handlers_onlyReceived_iff (recv : Option Bytes) (stale : ℕ → UInt8) (x : Meta) :
    (x.state = .authing →
      (OnlyReceived .authed (bytes "250 OK") tcAuthedSocket recv stale x ↔
        Unspoilt (bytes "250 OK") recv stale)) ∧
    (x.state = .toldConnectTarget →
      (OnlyReceived .connectedTarget (bytes "250 SPEEDTESTING") tcConnectedSocket recv stale x ↔
        Unspoilt (bytes "250 SPEEDTESTING") recv stale)) ∧
    (x.state = .settingBw →
      (OnlyReceived .bwSet (bytes "250 OK") tcDidSetBwRate recv stale x ↔
        Unspoilt (bytes "250 OK") recv stale)) := by
  refine ⟨fun hx => ?_, fun hx => ?_, fun hx => ?_⟩
  · exact awaitReply_onlyReceived_iff hx rfl
  · exact awaitReply_onlyReceived_iff hx rfl
  · exact awaitReply_onlyReceived_iff hx rfl

/-- A client that waits for the reply to its password. -/
def authingClient : Meta :=
  ⟨3, .authing, bytes "m", bytes "10.0.0.1", bytes "9051", some (bytes "pw"), false, 1⟩

/-- Behind a closed connection, a reply left in the buffer confirms the phase. -/
theorem stale_reply_confirms : let stale := fun i => (bytes "250 OK").getD i 0
    tcAuthedSocket (some []) stale authingClient =
      .ok (true, { authingClient with state := .authed }) ∧
    ¬ OnlyReceived .authed (bytes "250 OK") tcAuthedSocket (some []) stale authingClient := by
  intro stale
  have hyes : tcAuthedSocket (some []) stale authingClient =
      .ok (true, { authingClient with state := .authed }) := by decide +kernel
  refine ⟨hyes, fun h => ?_⟩
  have hno := h.refuses (by decide +kernel)
  rw [hyes] at hno
  cases hno

theorem handlers_onlyReceived_ok :
    OnlyReceived .authed (bytes "250 OK") tcAuthedSocket (some (bytes "250 OK\r\n")) (fun _ => 0)
      authingClient := by
  refine ((handlers_onlyReceived_iff _ _ _).1 rfl).mpr ⟨?_, ?_⟩
  · rintro _ ⟨⟩
    decide +kernel
  · rintro _ ⟨⟩
    decide +kernel

section Output
variable {mId : UInt32} {fp : Bytes} {t : Timeval} {got : Bytes} {x : Meta}

theorem trimTail_in_range_iff : trimTail got.length (got ++ [0]) ≠ .error .outOfBounds ↔
    ∃ b ∈ got, isNewline b = false := by
  by_cases hgot : ∃ b ∈ got, isNewline b = false
  · obtain ⟨body, nls, rfl, hne, hlast, hnls⟩ := exists_body hgot
    rw [trimTail_body [0] hne hlast hnls]
    simpa using hgot
  · have hall : ∀ b ∈ got, isNewline b = true := by simpa using hgot
    rw [trimTail_blank [0] hall]
    simpa using hall

theorem tcOutputResult_in_range_iff :
    tcOutputResult mId fp (some t) (some got) x ≠ .error .outOfBounds ↔
      got = [] ∨ got.length < readBufLen ∧ ∃ b ∈ got, isNewline b = false := by
  have hchange : ∀ st, tcChangeState x st ≠ .error .outOfBounds := by
    intro st h
    simp only [tcChangeState, bind_eq_error, failIf_eq_error, reduceCtorEq, and_false, false_or]
      at h
    obtain ⟨_, _, h⟩ := h
    cases h
  cases got with
  | nil =>
    simp only [tcOutputResult, ne_eq, bind_eq_error, true_or, iff_true]
    rintro (h | ⟨_, -, h⟩)
    · exact hchange _ h
    · cases h
  | cons b rest =>
    rw [← trimTail_in_range_iff]
    simp only [tcOutputResult, reduceCtorEq, false_or]
    by_cases hfull : readBufLen ≤ (b :: rest).length
    · simp only [failIf, if_pos hfull, bind, Except.bind, Nat.not_lt_of_le hfull, false_and,
        ne_eq, not_true_eq_false]
    · simp only [failIf, if_neg hfull, Nat.lt_of_not_le hfull, true_and]
      cases htrim : trimTail (b :: rest).length (b :: rest ++ [0]) with
      | error e => simp [bind, Except.bind]
      | ok buf =>
        simp only [bind, Except.bind, ne_eq, reduceCtorEq, not_false_eq_true, iff_true]
        split
        · intro h
          rcases bind_eq_error.mp h with h | ⟨_, -, h⟩
          · exact hchange _ h
          · cases h
        · intro h
          cases h

end Output

/-- For which reads each of the four functions stays inside its buffer. -/
theorem buffers_in_range_iff (got : Bytes) (stale : ℕ → UInt8) (x : Meta) :
    (x.state = .authing → (tcAuthedSocket (some got) stale x ≠ .error .outOfBounds ↔
      got.length < readBufLen ∨ bytes "250 OK" <+: got)) ∧
    (x.state = .toldConnectTarget → (tcConnectedSocket (some got) stale x ≠ .error .outOfBounds ↔
      got.length < readBufLen ∨ bytes "250 SPEEDTESTING" <+: got)) ∧
    (x.state = .settingBw → (tcDidSetBwRate (some got) stale x ≠ .error .outOfBounds ↔
      got.length < readBufLen ∨ bytes "250 OK" <+: got)) ∧
    ∀ mId fp t, tcOutputResult mId fp (some t) (some got) x ≠ .error .outOfBounds ↔
      got = [] ∨ got.length < readBufLen ∧ ∃ b ∈ got, isNewline b = false := by
  refine ⟨fun hx => ?_, fun hx => ?_, fun hx => ?_, fun mId fp t => ?_⟩
  · exact awaitReply_in_range_iff hx rfl (by decide +kernel)
  · exact awaitReply_in_range_iff hx rfl (by decide +kernel)
  · exact awaitReply_in_range_iff hx rfl (by decide +kernel)
  · exact tcOutputResult_in_range_iff

/-- A read that fills the buffer writes behind it, and a result of line ends only runs off its
front. -/
theorem reads_out_of_range :
    tcAuthedSocket (some (List.replicate readBufLen 0x20)) (fun _ => 0) authingClient =
      .error .outOfBounds ∧
    tcOutputResult 1 (bytes "AA") (some default) (some (bytes "\r\n"))
      { authingClient with state := .measuring } = .error .outOfBounds := by
  constructor
  · have hbuf : (List.range (bytes "250 OK").length).map
        (fun i => (List.replicate readBufLen 0x20).getD i 0) ≠ bytes "250 OK" := by
      decide +kernel
    exact (awaitReply_mismatch rfl hbuf).trans (if_pos (by simp))
  · decide +kernel

theorem buffers_in_range_reply :
    tcAuthedSocket (some (bytes "515 Authentication failed\r\n")) (fun _ => 0) authingClient ≠
      .error .outOfBounds :=
  ((buffers_in_range_iff _ _ _).1 rfl).mpr (.inl (by decide +kernel))

end Flashflow
