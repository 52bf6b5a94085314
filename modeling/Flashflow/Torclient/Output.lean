import Flashflow.Library.Tokens
import Flashflow.Torclient.Meta

/-! `tc_output_result`: the per-second results of a measuring client, written to the result file. -/
namespace Flashflow
open Outcome

/-- The arguments of the `fprintf` that writes one line of the result file. -/
structure ResultLine where
  time : Timeval
  mId : UInt32
  fp : Bytes
  cls : Bytes
  host : Bytes
  port : Bytes
  token : Bytes
  deriving DecidableEq, Repr

/-- `TS_FMT " %u %s %s;%s:%s %s\n"` -/
def ResultLine.render (l : ResultLine) : Bytes :=
  decimalInt l.time.tvSec.toInt ++ bytes "." ++ decimal6 l.time.tvUsec.val ++ bytes " "
    ++ decimal l.mId.toNat ++ bytes " " ++ l.fp ++ bytes " " ++ l.cls ++ bytes ";" ++ l.host
    ++ bytes ":" ++ l.port ++ bytes " " ++ l.token ++ bytes "\n"

def isNewline (b : UInt8) : Bool := b = 0x0D || b = 0x0A

/-- `for (j = len-1; buf[j] == '\r' || buf[j] == '\n'; j--) buf[j] = '\0'`, with `j + 1` as the
argument. -/
def trimTail : ℕ → Bytes → Except Abort Bytes
  | 0, _ => .error .outOfBounds
  | j + 1, buf =>
    match buf[j]? with
    | none => .error .outOfBounds
    | some b => if isNewline b then trimTail j (buf.set j 0) else .ok buf

/-- The nonempty tokens of `strsep(&head, "\r\n")`. -/
def resultTokens (b : Bytes) : List Bytes := Tokens.tokens isNewline b

def doneResp : Bytes := bytes "650 SPEEDTESTING END"

/-- The result line for one token of what client `x` has sent. -/
def resultLine (mId : UInt32) (fp : Bytes) (t : Timeval) (x : Meta) (token : Bytes) :
    ResultLine where
  time := t
  mId := mId
  fp := fp
  cls := x.cls
  host := x.host
  port := x.port
  token := token

/-- `tc_output_result`, with what `gettimeofday` and `recv` answer. -/
def tcOutputResult (mId : UInt32) (fp : Bytes) (time : Option Timeval) (recv : Option Bytes)
    (x : Meta) : Except Abort (Bool × List ResultLine × Meta) :=
  match time, recv with
  | none, _ => pure (false, [], x)
  | some _, none => pure (false, [], x)
  | some _, some [] => do
    let x ← tcChangeState x .done
    pure (true, [], x)
  | some t, some got => do
    -- buf[len] = '\0'
    failIf (readBufLen ≤ got.length) .outOfBounds
    let buf ← trimTail got.length (got ++ [0])
    let lines := (resultTokens (cstr buf)).map (resultLine mId fp t x)
    if doneResp <:+: cstr buf then do
      let x ← tcChangeState x .done
      pure (true, lines, x)
    else pure (true, lines, x)

theorem trimTail_error {n : ℕ} {buf : Bytes} {e : Abort} (h : trimTail n buf = .error e) :
    e = .outOfBounds := by
  induction n generalizing buf with
  | zero => simpa [trimTail] using h.symm
  | succ n ih =>
    unfold trimTail at h
    split at h
    · simpa using h.symm
    · split at h
      · exact ih h
      · cases h

theorem tcOutputResult_spec (mId : UInt32) (fp : Bytes) (time : Option Timeval)
    (recv : Option Bytes) {x : Meta} (h : x.state = .measuring) :
    tcOutputResult mId fp time recv x = .ok (false, [], x) ∨
    (∃ lines, tcOutputResult mId fp time recv x = .ok (true, lines, x)) ∨
    (∃ lines, tcOutputResult mId fp time recv x = .ok (true, lines, { x with state := .done })) ∨
    tcOutputResult mId fp time recv x = .error .outOfBounds := by
  have hallow : x.state.allows .done = true := by simp [h, CsmState.allows]
  unfold tcOutputResult
  split
  · exact .inl rfl
  · exact .inl rfl
  · refine .inr (.inr (.inl ⟨[], ?_⟩))
    simp [tcChangeState_eq hallow, bind, Except.bind, pure, Except.pure]
  next got _ =>
    by_cases hlen : readBufLen ≤ got.length
    · exact .inr (.inr (.inr (by simp [failIf, hlen, bind, Except.bind])))
    cases ht : trimTail got.length (got ++ [0]) with
    | error e =>
      obtain rfl := trimTail_error ht
      exact .inr (.inr (.inr (by simp [failIf, hlen, bind, Except.bind])))
    | ok buf =>
      by_cases hend : doneResp <:+: cstr buf
      · exact .inr (.inr (.inl ⟨_, by
          simp [failIf, hlen, hend, tcChangeState_eq hallow, bind, Except.bind, pure, Except.pure]
          rfl⟩))
      · exact .inr (.inl ⟨_, by
          simp [failIf, hlen, hend, bind, Except.bind, pure, Except.pure]
          rfl⟩)

theorem tcOutputResult_moves {mId : UInt32} {fp : Bytes} {time : Option Timeval}
    {recv : Option Bytes} {x y : Meta} {ok : Bool} {lines : List ResultLine}
    (h : tcOutputResult mId fp time recv x = .ok (ok, lines, y)) : MovesTo .done x y := by
  unfold tcOutputResult at h
  split at h
  · obtain ⟨-, -, rfl⟩ : false = ok ∧ [] = lines ∧ x = y := by simpa using h
    exact .inl rfl
  · obtain ⟨-, -, rfl⟩ : false = ok ∧ [] = lines ∧ x = y := by simpa using h
    exact .inl rfl
  · simp only [bind_eq_ok, pure_eq_ok, Prod.mk.injEq] at h
    obtain ⟨z, hz, -, -, rfl⟩ := h
    exact tcChangeState_moves hz
  · simp only [bind_eq_ok] at h
    obtain ⟨-, -, buf, -, h⟩ := h
    split at h
    · simp only [bind_eq_ok, pure_eq_ok, Prod.mk.injEq] at h
      obtain ⟨z, hz, -, -, rfl⟩ := h
      exact tcChangeState_moves hz
    · simp only [pure_eq_ok, Prod.mk.injEq] at h
      obtain ⟨-, -, rfl⟩ := h
      exact .inl rfl

end Flashflow
