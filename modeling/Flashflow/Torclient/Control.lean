import Flashflow.Torclient.Meta

/-! The control port commands and their reply handlers. Each function gets what the operating
system answers to its calls, and returns its C return value and the client afterwards. -/
namespace Flashflow
open Outcome

/-- `tc_make_socket`, with what `socket`, `getaddrinfo` and `connect` answer. -/
def tcMakeSocket (socket : Option ℕ) (resolved connected : Bool) (x : Meta) :
    Except Abort (Int × Meta) := do
  tcAssertState x .invalid
  match socket with
  | none => pure (-1, x)
  | some s =>
    if !resolved then pure (-1, x)
    else if !connected then pure (-1, x)
    else do
      let x ← tcChangeState { x with fd := s } .connected
      pure (s, x)

/-- The end of the functions that send a command: print it into a buffer of `size` bytes, `send`
the buffer, give up on an error of either, else go to the state that waits for the reply. Also
returns the bytes handed to `send`. -/
def sendCommand (size : ℕ) (text : Bytes) (waits : CsmState) (sent : Option ℕ) (x : Meta) :
    Except Abort (Bool × Bytes × Meta) :=
  -- snprintf(..) < 0
  if intMax < text.length then pure (false, [], x)
  else
    let msg := snprintf size text
    match sent with
    | none => pure (false, msg, x)
    | some _ => do
      let x ← tcChangeState x waits
      pure (true, msg, x)

def tcAuthSocket (sent : Option ℕ) (x : Meta) : Except Abort (Bool × Bytes × Meta) := do
  tcAssertState x .connected
  let pw := x.pw.getD []
  sendCommand 80 (bytes "AUTHENTICATE \"" ++ pw ++ bytes "\"\n") .authing sent x

def tcTellConnect (fp : Bytes) (conns : UInt32) (sent : Option ℕ) (x : Meta) :
    Except Abort (Bool × Bytes × Meta) := do
  tcAssertState x .authed
  let bgStr := if x.isBg then bytes " BG" else []
  failIf (x.isBg ∧ conns ≠ 1) .assertBgConns
  sendCommand 1024 (bytes "TESTSPEED " ++ fp ++ bytes " " ++ decimal conns.toNat ++ bgStr
    ++ bytes "\n") .toldConnectTarget sent x

def tcSetBwRate (bw : UInt32) (sent : Option ℕ) (x : Meta) :
    Except Abort (Bool × Bytes × Meta) := do
  tcAssertState x .connectedTarget
  let acc := if x.isBg then 1 else 32
  sendCommand 1024 (bytes "RESETCONF BandwidthRate=" ++ decimal bw.toNat
    ++ bytes " BandwidthBurst=" ++ decimal bw.toNat
    ++ bytes " SchedulerEchoCellMustAccumulate=" ++ decimal acc ++ bytes "\n") .settingBw sent x

/-- `tc_start_measurement`; the duration is printed with `%d`. -/
def tcStartMeasurement (dur : UInt32) (sent : Option ℕ) (x : Meta) :
    Except Abort (Bool × Bytes × Meta) :=
  sendCommand 80 (bytes "TESTSPEED " ++ decimalInt dur.toInt32.toInt ++ bytes "\n") .measuring
    sent x

/-- The common body of the reply handlers. The buffer is not initialised: behind what `recv`
filled in are stale bytes. -/
def awaitReply (waits good : CsmState) (goodResp : Bytes) (recv : Option Bytes) (stale : ℕ → UInt8)
    (x : Meta) : Except Abort (Bool × Meta) := do
  tcAssertState x waits
  match recv with
  | none => pure (false, x)
  | some got =>
    let buf : ℕ → UInt8 := fun i => got.getD i (stale i)
    if (List.range goodResp.length).map buf ≠ goodResp then do
      -- buf[len] = '\0'
      failIf (readBufLen ≤ got.length) .outOfBounds
      pure (false, x)
    else do
      let x ← tcChangeState x good
      pure (true, x)

def tcAuthedSocket : Option Bytes → (ℕ → UInt8) → Meta → Except Abort (Bool × Meta) :=
  awaitReply .authing .authed (bytes "250 OK")

def tcConnectedSocket : Option Bytes → (ℕ → UInt8) → Meta → Except Abort (Bool × Meta) :=
  awaitReply .toldConnectTarget .connectedTarget (bytes "250 SPEEDTESTING")

def tcDidSetBwRate : Option Bytes → (ℕ → UInt8) → Meta → Except Abort (Bool × Meta) :=
  awaitReply .settingBw .bwSet (bytes "250 OK")

/-! What the functions can do. -/

theorem tcMakeSocket_accepted {x : Meta} (h : x.state = .invalid) (s : ℕ) :
    tcMakeSocket (some s) true true x =
      .ok ((s : Int), { x with fd := s, state := .connected }) := by
  have hallow : CsmState.allows x.state .connected = true := by rw [h]; rfl
  simp [tcMakeSocket, tcAssertState_eq h, tcChangeState, failIf, hallow, bind, Except.bind, pure,
    Except.pure]

theorem tcMakeSocket_refused {socket : Option ℕ} {resolved connected : Bool} {x : Meta}
    (h : x.state = .invalid) (hno : (socket.isSome && resolved && connected) = false) :
    tcMakeSocket socket resolved connected x = .ok (-1, x) := by
  simp only [tcMakeSocket, tcAssertState_eq h, bind, Except.bind, pure, Except.pure]
  cases socket with
  | none => rfl
  | some s =>
    cases resolved <;> cases connected <;> first | rfl | cases hno

theorem tcMakeSocket_spec {socket : Option ℕ} {resolved connected : Bool} {x : Meta}
    (h : x.state = .invalid) : tcMakeSocket socket resolved connected x = .ok (-1, x) ∨
      ∃ s, socket = some s ∧ tcMakeSocket socket resolved connected x =
        .ok ((s : Int), { x with fd := s, state := .connected }) := by
  by_cases hok : (socket.isSome && resolved && connected) = true
  · simp only [Bool.and_eq_true, Option.isSome_iff_exists] at hok
    obtain ⟨⟨⟨s, rfl⟩, rfl⟩, rfl⟩ := hok
    exact .inr ⟨s, rfl, tcMakeSocket_accepted h s⟩
  · exact .inl (tcMakeSocket_refused h (Bool.eq_false_iff.mpr hok))

/-- What a call that returns has done. -/
theorem tcMakeSocket_ok {socket : Option ℕ} {resolved connected : Bool} {x y : Meta} {ret : Int}
    (h : tcMakeSocket socket resolved connected x = .ok (ret, y)) : x.state = .invalid ∧
      ((socket.isSome && resolved && connected) = false ∧ ret = -1 ∧ y = x ∨
        ∃ s, socket = some s ∧ resolved = true ∧ connected = true ∧ ret = s ∧
          y = { x with fd := s, state := .connected }) := by
  have hst : x.state = .invalid := by
    simp only [tcMakeSocket, bind_eq_ok, tcAssertState, failIf_eq_ok, not_not] at h
    exact h.choose_spec.1
  refine ⟨hst, ?_⟩
  by_cases hok : (socket.isSome && resolved && connected) = true
  · simp only [Bool.and_eq_true, Option.isSome_iff_exists] at hok
    obtain ⟨⟨⟨s, rfl⟩, rfl⟩, rfl⟩ := hok
    rw [tcMakeSocket_accepted hst] at h
    obtain ⟨rfl, rfl⟩ := Prod.mk.inj (Except.ok.inj h)
    exact .inr ⟨s, rfl, rfl, rfl, rfl, rfl⟩
  · have hno := Bool.eq_false_iff.mpr hok
    rw [tcMakeSocket_refused hst hno] at h
    obtain ⟨rfl, rfl⟩ := Prod.mk.inj (Except.ok.inj h)
    exact .inl ⟨hno, rfl, rfl⟩

theorem sendCommand_spec {size : ℕ} {text : Bytes} {waits : CsmState} {x : Meta}
    (h : x.state.allows waits = true) (sent : Option ℕ) :
    ∃ ok msg, sendCommand size text waits sent x =
      .ok (ok, msg, if ok then { x with state := waits } else x) := by
  unfold sendCommand
  split
  · exact ⟨false, _, rfl⟩
  · cases sent with
    | none => exact ⟨false, _, rfl⟩
    | some n =>
      refine ⟨true, snprintf size text, ?_⟩
      simp [tcChangeState_eq h, bind, Except.bind, pure, Except.pure]

section Moves
variable {sent : Option ℕ} {x y : Meta} {ok : Bool} {msg : Bytes}

theorem sendCommand_moves {size : ℕ} {text : Bytes} {waits : CsmState}
    (h : sendCommand size text waits sent x = .ok (ok, msg, y)) : MovesTo waits x y := by
  unfold sendCommand at h
  split at h
  · obtain ⟨-, -, rfl⟩ : false = ok ∧ [] = msg ∧ x = y := by simpa using h
    exact .inl rfl
  cases sent with
  | none =>
    obtain ⟨-, -, rfl⟩ : false = ok ∧ snprintf size text = msg ∧ x = y := by simpa using h
    exact .inl rfl
  | some n =>
    simp only [bind_eq_ok, pure_eq_ok, Prod.mk.injEq] at h
    obtain ⟨z, hz, -, -, rfl⟩ := h
    exact tcChangeState_moves hz

theorem tcAuthSocket_moves (h : tcAuthSocket sent x = .ok (ok, msg, y)) :
    MovesTo .authing x y := by
  simp only [tcAuthSocket, bind_eq_ok] at h
  obtain ⟨-, -, h⟩ := h
  exact sendCommand_moves h

theorem tcTellConnect_moves {fp : Bytes} {conns : UInt32}
    (h : tcTellConnect fp conns sent x = .ok (ok, msg, y)) : MovesTo .toldConnectTarget x y := by
  simp only [tcTellConnect, bind_eq_ok] at h
  obtain ⟨-, -, -, -, h⟩ := h
  exact sendCommand_moves h

theorem tcSetBwRate_moves {bw : UInt32} (h : tcSetBwRate bw sent x = .ok (ok, msg, y)) :
    MovesTo .settingBw x y := by
  simp only [tcSetBwRate, bind_eq_ok] at h
  obtain ⟨-, -, h⟩ := h
  exact sendCommand_moves h

theorem tcStartMeasurement_moves {dur : UInt32}
    (h : tcStartMeasurement dur sent x = .ok (ok, msg, y)) : MovesTo .measuring x y :=
  sendCommand_moves h

theorem awaitReply_moves {waits good : CsmState} {goodResp : Bytes} {recv : Option Bytes}
    {stale : ℕ → UInt8} (h : awaitReply waits good goodResp recv stale x = .ok (ok, y)) :
    MovesTo good x y := by
  simp only [awaitReply, bind_eq_ok] at h
  obtain ⟨-, -, h⟩ := h
  split at h
  · obtain ⟨-, rfl⟩ := Prod.mk.inj (Except.ok.inj h)
    exact .inl rfl
  split at h
  · simp only [bind_eq_ok, pure_eq_ok, Prod.mk.injEq] at h
    obtain ⟨-, -, -, rfl⟩ := h
    exact .inl rfl
  · simp only [bind_eq_ok, pure_eq_ok, Prod.mk.injEq] at h
    obtain ⟨z, hz, -, rfl⟩ := h
    exact tcChangeState_moves hz

end Moves

theorem awaitReply_spec {waits good : CsmState} {goodResp : Bytes} {recv : Option Bytes}
    {stale : ℕ → UInt8} {x : Meta} (h : x.state = waits) (hallow : waits.allows good = true) :
    awaitReply waits good goodResp recv stale x = .ok (false, x) ∨
    awaitReply waits good goodResp recv stale x = .ok (true, { x with state := good }) ∨
    awaitReply waits good goodResp recv stale x = .error .outOfBounds ∧
      ∃ got, recv = some got ∧ readBufLen ≤ got.length := by
  have hx : x.state.allows good = true := h ▸ hallow
  cases recv with
  | none =>
    refine .inl ?_
    simp [awaitReply, tcAssertState_eq h, bind, Except.bind, pure, Except.pure]
  | some got =>
    simp only [awaitReply, tcAssertState_eq h, tcChangeState_eq hx, bind, Except.bind]
    split
    · by_cases hlen : readBufLen ≤ got.length
      · exact .inr (.inr ⟨by simp [failIf, hlen], got, rfl, hlen⟩)
      · exact .inl (by simp [failIf, hlen, pure, Except.pure])
    · exact .inr (.inl rfl)

end Flashflow
