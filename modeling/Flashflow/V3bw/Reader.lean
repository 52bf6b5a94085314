import Mathlib.Algebra.Group.Int.Defs
import Flashflow.Torclient.ClientFile

/-! `v3bw.c` up to the hash table: which lines of a result file are accepted. -/
namespace Flashflow

/-- `LONG_MAX` -/
def longMax : Int := 2 ^ 63 - 1

/-- `LONG_MIN` -/
def longMin : Int := -2 ^ 63

/-- `isspace` -/
def isSpace (b : UInt8) : Bool := b = 0x20 || (0x09 ≤ b && b ≤ 0x0D)

def isDigitByte (b : UInt8) : Bool := 0x30 ≤ b && b ≤ 0x39

/-- The value of a string of decimal digits. -/
def decimalValue (digits : Bytes) : ℕ := digits.foldl (fun n b => 10 * n + (b.toNat - 0x30)) 0

/-- Whether a number is negative, and what comes after its sign. -/
def optionalSign : Bytes → Bool × Bytes
  | [] => (false, [])
  | b :: rest =>
    if b = 0x2D then (true, rest) else if b = 0x2B then (false, rest) else (false, b :: rest)

/-- `strtol(word, &end, 10)`, with what `end` points to. -/
def strtol (word : Bytes) : Int × Bytes :=
  let (negative, s) := optionalSign (word.dropWhile isSpace)
  let digits := s.takeWhile isDigitByte
  if digits = [] then (0, word)
  else
    let i : Int := if negative then -decimalValue digits else decimalValue digits
    (max longMin (min longMax i), s.dropWhile isDigitByte)

def asNonnegativeLong (word : Bytes) : Int :=
  if word = [] then -1
  else
    let (i, rest) := strtol word
    if rest ≠ [] then -1 else i

def isFp (word : Bytes) : Bool :=
  word.length = 40 &&
    word.all fun c => !(c < 0x30 || (c > 0x39 && c < 0x41) || c > 0x46)

/-- The loop of `trim_newlines`, over the line from its end. It does not stop at the front. -/
def trimFromEnd : Bytes → Except Abort Bytes
  | [] => .error .outOfBounds
  | b :: rest => if b = 0x0A then trimFromEnd rest else .ok (b :: rest).reverse

/-- `trim_newlines`, with the string that is left. -/
def trimNewlines (line : Bytes) : Except Abort Bytes := trimFromEnd (cstr line).reverse

/-- The pieces of `s` after at most `n` cuts at a space. -/
def splitAtMost : ℕ → Bytes → List Bytes
  | 0, s => [s]
  | n + 1, s =>
    match s.dropWhile (· ≠ 0x20) with
    | [] => [s]
    | _ :: rest => s.takeWhile (· ≠ 0x20) :: splitAtMost n rest

/-- `g_strsplit(s, " ", max)`; an empty string has no pieces. -/
def gStrsplit (max : ℕ) (s : Bytes) : List Bytes := if s = [] then [] else splitAtMost (max - 1) s

/-- What is read from an accepted line. -/
structure Triple where
  fp : Bytes
  ts : Int
  bw : Int
  deriving DecidableEq, Repr

/-- The checks of `read_input_to_ht` on the words of a line of nine. -/
def acceptWords (fp code kind ts bwdown : Bytes) : Option Triple :=
  if code.take 3 ≠ bytes "650" then none
  else if kind.take 12 ≠ bytes "SPEEDTESTING" then none
  else if ¬ isFp fp then none
  else if asNonnegativeLong ts < 0 then none
  else if asNonnegativeLong bwdown < 0 then none
  else some ⟨fp, asNonnegativeLong ts, asNonnegativeLong bwdown⟩

/-- The body of the loop of `read_input_to_ht` up to the hash table; `none` is an ignored line. -/
def readLine (line : Bytes) : Except Abort (Option Triple) := do
  let line ← trimNewlines line
  match gStrsplit 9 line with
  | [_, _, fp, _, code, kind, ts, bwdown, _] => pure (acceptWords fp code kind ts bwdown)
  | _ => pure none

/-- What becomes of each line of the input. -/
def readLines (input : Bytes) : Except Abort (List (Option Triple)) :=
  (getlines input).mapM readLine

/-- The accepted triples of the input, in order. -/
def acceptedTriples (input : Bytes) : Except Abort (List Triple) := do
  let triples ← readLines input
  pure (triples.filterMap id)

end Flashflow
