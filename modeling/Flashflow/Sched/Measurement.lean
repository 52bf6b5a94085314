import Mathlib.Algebra.Group.Nat.Defs
import Mathlib.Data.List.Basic
import Flashflow.Library.Outcome

/-! Measurements of the schedule and the parser for one line of a schedule file. -/
namespace Flashflow

/-- A Rust string, as its characters. -/
abbrev Text := List Char

/-- A C string or buffer, as its bytes. -/
abbrev Bytes := List UInt8

/-- The bytes of a literal. -/
def bytes (s : String) : Bytes := s.toUTF8.data.toList

namespace Sched
open Outcome

/-- The ways in which the scheduler library panics. -/
inductive Panic where
  | parseInt
  | tooManyWords
  | zeroId
  | selfDependency
  | hostCounts
  | bgConns
  | bgBw
  | manyBg
  | duplicateId
  | unknownDepend
  | noneReady
  | unknownDone
  | notInProgress
  | unknownId
  | interiorNul
  | overflow
  deriving DecidableEq, Repr

structure Host where
  cls : Text
  bw : UInt32
  conns : UInt32
  deriving DecidableEq, Repr

inductive State where
  | waiting | inProgress | complete
  deriving DecidableEq, Repr

structure Measurement where
  id : UInt32
  fp : Text
  dur : UInt32
  state : State
  hosts : List Host
  depends : List UInt32
  finishedDepends : List UInt32
  failsafeStop : UInt64
  deriving DecidableEq, Repr

/-- `char::is_whitespace`: the Unicode `White_Space` property. -/
def isWhitespace (c : Char) : Bool :=
  (9 ≤ c.toNat && c.toNat ≤ 13) || c.toNat == 0x20 || c.toNat == 0x85 || c.toNat == 0xA0 ||
    c.toNat == 0x1680 || (0x2000 ≤ c.toNat && c.toNat ≤ 0x200A) || c.toNat == 0x2028 ||
    c.toNat == 0x2029 || c.toNat == 0x202F || c.toNat == 0x205F || c.toNat == 0x3000

/-- `str::trim` -/
def trim (s : Text) : Text := ((s.dropWhile isWhitespace).reverse.dropWhile isWhitespace).reverse

/-- The value of a string of decimal digits. -/
def digitsValue (ds : Text) : ℕ := ds.foldl (fun n c => 10 * n + (c.toNat - '0'.toNat)) 0

/-- `u32::from_str`: an optional `+`, then decimal digits of a value that fits. -/
def parseU32 (s : Text) : Except Panic UInt32 :=
  let digits := match s with
    | '+' :: rest => rest
    | _ => s
  if digits.isEmpty || !digits.all Char.isDigit then .error .parseInt
  else if digitsValue digits < 2 ^ 32 then .ok (UInt32.ofNat (digitsValue digits))
  else .error .parseInt

/-- The local variables of `new_from_string` while it walks over the words of a line. -/
structure LineWords where
  wordNum : ℕ := 0
  id : UInt32 := 0
  fp : Text := []
  dur : UInt32 := 0
  hostClass : List Text := []
  hostBw : List UInt32 := []
  hostConns : List UInt32 := []
  depends : List UInt32 := []

/-- One turn of the word loop; `sub` is a piece between single spaces. -/
def LineWords.word (w : LineWords) (sub : Text) : Except Panic LineWords :=
  let sub := trim sub
  if sub.isEmpty then .ok w
  else do
    let w ← match w.wordNum with
      | 0 => do pure { w with id := ← parseU32 sub }
      | 1 => pure { w with fp := sub }
      | 2 => do pure { w with dur := ← parseU32 sub }
      | 3 => pure { w with hostClass := sub.splitOn ',' }
      | 4 => do pure { w with hostBw := ← (sub.splitOn ',').mapM parseU32 }
      | 5 => do pure { w with hostConns := ← (sub.splitOn ',').mapM parseU32 }
      | 6 => do
        let ids ← (sub.splitOn ',').mapM parseU32
        pure { w with depends := ids.filter (fun i => i > 0) }
      | _ => throw .tooManyWords
    pure { w with wordNum := w.wordNum + 1 }

/-- The background host rule, checked for every host in turn. -/
def Host.check (h : Host) : Except Panic Unit := do
  failIf (h.cls = "bg".toList ∧ h.conns ≠ 1) .bgConns
  failIf (h.cls = "bg".toList ∧ h.bw ≠ 125000) .bgBw

/-- What `new_from_string` does after the word loop. -/
def LineWords.finish (w : LineWords) : Except Panic Measurement := do
  failIf (w.id = 0) .zeroId
  failIf (w.id ∈ w.depends) .selfDependency
  failIf (w.hostClass.length ≠ w.hostBw.length ∨ w.hostClass.length ≠ w.hostConns.length)
    .hostCounts
  let hosts := (w.hostClass.zip (w.hostBw.zip w.hostConns)).map fun (c, b, n) => Host.mk c b n
  hosts.forM Host.check
  failIf (1 < (hosts.filter (fun h => h.cls = "bg".toList)).length) .manyBg
  pure { id := w.id, fp := w.fp, dur := w.dur, state := .waiting, hosts := hosts,
         depends := w.depends, finishedDepends := [], failsafeStop := 0 }

/-- `Measurement::new_from_string`; comments and blank lines give `none`. -/
def newFromString (s : Text) : Except Panic (Option Measurement) :=
  let s := trim s
  if s.isEmpty || s.head? == some '#' then .ok none
  else do
    let w ← (s.splitOn ' ').foldlM LineWords.word {}
    pure (some (← w.finish))

/-- A measurement as `new_from_string` builds it. -/
structure Measurement.Fresh (m : Measurement) : Prop where
  id_ne_zero : m.id ≠ 0
  waiting : m.state = .waiting
  no_finished : m.finishedDepends = []

theorem LineWords.finish_fresh {w : LineWords} {m : Measurement} (h : w.finish = .ok m) :
    m.Fresh := by
  simp only [LineWords.finish, bind_eq_ok, failIf_eq_ok, pure_eq_ok] at h
  obtain ⟨-, hid, -, -, -, -, -, -, -, -, rfl⟩ := h
  exact ⟨hid, rfl, rfl⟩

theorem newFromString_fresh {s : Text} {m : Measurement} (h : newFromString s = .ok (some m)) :
    m.Fresh := by
  unfold newFromString at h
  dsimp only at h
  split at h
  · cases h
  · simp only [bind_eq_ok, pure_eq_ok] at h
    obtain ⟨w, -, m', hf, hm⟩ := h
    exact Option.some.inj hm ▸ LineWords.finish_fresh hf

end Sched
end Flashflow
