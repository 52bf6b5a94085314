import Flashflow.Sched.Measurement

/-! The tor clients as the coordinator sees them: `struct ctrl_sock_meta` and its state machine. -/
namespace Flashflow
open Outcome

/-- `enum csm_state` -/
inductive CsmState where
  | invalid | connected | authing | authed | toldConnectTarget | connectedTarget | settingBw | bwSet
  | measuring | done | failed
  deriving DecidableEq, Repr

/-- How the process ends other than by returning: a failed assertion, a panic of the scheduler
library, or undefined behaviour. -/
inductive Abort where
  | badStateChange (old new : CsmState)
  | assertState (found expected : CsmState)
  | assertFillMsmParams
  | assertGettimeofday
  | assertAssigned
  | assertNumTold
  | assertBgConns
  | panic (p : Sched.Panic)
  | outOfBounds
  | signedOverflow
  | doubleFree
  | diverges
  deriving DecidableEq, Repr

/-- `struct ctrl_sock_meta`; the strings are without their terminating zero. -/
structure Meta where
  fd : Int
  state : CsmState
  cls : Bytes
  host : Bytes
  port : Bytes
  pw : Option Bytes
  isBg : Bool
  currentMId : UInt32
  deriving DecidableEq, Repr

/-- The switch of `tc_change_state_`. -/
def CsmState.allows : CsmState → CsmState → Bool
  | .invalid, .connected => true
  | .connected, .failed | .connected, .authing => true
  | .authing, .failed | .authing, .authed => true
  | .authed, .failed | .authed, .toldConnectTarget => true
  | .toldConnectTarget, .failed | .toldConnectTarget, .connectedTarget => true
  | .connectedTarget, .failed | .connectedTarget, .settingBw => true
  | .settingBw, .failed | .settingBw, .bwSet => true
  | .bwSet, .failed | .bwSet, .measuring => true
  | .measuring, .failed | .measuring, .done => true
  | .done, .failed | .done, .invalid => true
  | .failed, .invalid => true
  | _, _ => false

def tcChangeState (x : Meta) (st : CsmState) : Except Abort Meta := do
  failIf (¬ x.state.allows st) (.badStateChange x.state st)
  pure { x with state := st }

def tcAssertState (x : Meta) (st : CsmState) : Except Abort Unit :=
  failIf (x.state ≠ st) (.assertState x.state st)

theorem tcChangeState_eq {x : Meta} {st : CsmState} (h : x.state.allows st = true) :
    tcChangeState x st = .ok { x with state := st } := by
  simp [tcChangeState, failIf, h]

theorem tcAssertState_eq {x : Meta} {st : CsmState} (h : x.state = st) :
    tcAssertState x st = .ok () := by
  simp [tcAssertState, failIf, h]

/-- What a function on a client does that makes at most one step of the state machine. -/
def MovesTo (st : CsmState) (x y : Meta) : Prop :=
  y = x ∨ x.state.allows st = true ∧ y = { x with state := st }

theorem tcChangeState_moves {x y : Meta} {st : CsmState} (h : tcChangeState x st = .ok y) :
    MovesTo st x y := by
  simp only [tcChangeState, bind_eq_ok, failIf_eq_ok, not_not, pure_eq_ok] at h
  obtain ⟨-, hallow, rfl⟩ := h
  exact .inr ⟨hallow, rfl⟩

theorem CsmState.allows_failed {st : CsmState} (h₁ : st ≠ .invalid) (h₂ : st ≠ .failed) :
    st.allows .failed = true := by
  cases st <;> simp_all [allows]

def tcMarkFailed (x : Meta) : Except Abort Meta := tcChangeState x .failed

/-- `tc_finished_with_meta`, with the descriptor it closes. -/
def tcFinishedWithMeta (x : Meta) : Except Abort (Option Int × Meta) := do
  let x ← tcChangeState x .invalid
  let (closed, x) := if 0 ≤ x.fd then (some x.fd, { x with fd := -1 }) else (none, x)
  let x := if x.currentMId ≠ 0 then { x with currentMId := 0 } else x
  pure (closed, x)

/-- A client nobody uses. -/
def Meta.idle (x : Meta) : Meta := { x with fd := -1, state := .invalid, currentMId := 0 }

theorem tcFinishedWithMeta_eq {x : Meta} (h : x.state.allows .invalid = true) (hfd : 0 ≤ x.fd) :
    tcFinishedWithMeta x = .ok (some x.fd, x.idle) := by
  simp only [tcFinishedWithMeta, tcChangeState_eq h, bind, Except.bind, hfd, ↓reduceIte, Meta.idle]
  split
  · rfl
  · simp_all [pure, Except.pure]

/-! Byte strings and C library functions on them. -/

/-- What a C string function sees of a buffer. -/
def cstr (b : Bytes) : Bytes := b.takeWhile (· ≠ 0)

@[simp] theorem cstr_zero (b : Bytes) : cstr (0 :: b) = [] := by simp [cstr]

theorem cstr_cons {c : UInt8} (h : c ≠ 0) (b : Bytes) : cstr (c :: b) = c :: cstr b := by
  simp [cstr, h]

theorem cstr_append {a : Bytes} (h : 0 ∉ a) (b : Bytes) : cstr (a ++ b) = a ++ cstr b :=
  List.takeWhile_append_of_pos fun c hc => by
    rw [decide_eq_true_eq]
    exact fun h0 => h (h0 ▸ hc)

@[simp] theorem cstr_of_not_mem {a : Bytes} (h : 0 ∉ a) : cstr a = a := by
  simpa [cstr] using cstr_append h []

theorem zero_not_mem_cstr (b : Bytes) : 0 ∉ cstr b := fun h => by
  simpa using List.all_eq_true.mp List.all_takeWhile 0 h

/-- Nothing after a zero is seen. -/
theorem cstr_append_of_mem {a : Bytes} (h : 0 ∈ a) (b : Bytes) : cstr (a ++ b) = cstr a := by
  induction a with
  | nil => simp at h
  | cons c a ih =>
    by_cases hc : c = 0
    · simp [hc]
    · have ha : 0 ∈ a := (List.mem_cons.mp h).resolve_left (Ne.symm hc)
      rw [List.cons_append, cstr_cons hc, cstr_cons hc, ih ha]

/-- `%u`, and `%ld` of a nonnegative number -/
def decimal (n : ℕ) : Bytes := (Nat.toDigits 10 n).map fun c => c.toNat.toUInt8

/-- `%d` and `%ld` -/
def decimalInt (n : Int) : Bytes :=
  if n < 0 then bytes "-" ++ decimal n.natAbs else decimal n.natAbs

/-- `%06ld` of a number below a million -/
def decimal6 (n : ℕ) : Bytes := List.replicate (6 - (decimal n).length) 0x30 ++ decimal n

/-- `INT_MAX`: for a longer text `snprintf` returns a negative number. -/
def intMax : ℕ := 2147483647

/-- `snprintf` into `size` bytes: what is kept in front of the terminating zero. -/
def snprintf (size : ℕ) (text : Bytes) : Bytes := text.take (size - 1)

/-- `READ_BUF_LEN` -/
def readBufLen : ℕ := 1024 * 8

/-- `struct timeval` -/
structure Timeval where
  tvSec : Int64
  tvUsec : Fin 1000000
  deriving DecidableEq, Inhabited, Repr

end Flashflow
