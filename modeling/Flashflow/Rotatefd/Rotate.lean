import Flashflow.Library.FileSystem
import Flashflow.Library.Tokens
import Flashflow.V3bw.Generate

/-! `rotatefd.c`, and what `v3bw_generate` does with the files: output goes to a new file whose name
ends in a number, and the name that was asked for becomes a link to it. -/
namespace Flashflow
open Outcome Tokens FileSystem

/-! Names of files. -/

abbrev isSlash (b : UInt8) : Bool := b == 0x2F

/-- A path as the system reads it; what ends in a slash stands for the directory itself. -/
def path (fname : Bytes) : Option (Path Bytes) :=
  if h : fname = [] then none
  else some {
    absolute := fname.head?.any isSlash
    names := tokens isSlash fname ++ if fname.getLast?.any isSlash then [bytes "."] else []
    nonempty := by
      cases hlast : fname.getLast?.any isSlash with
      | true => exact .inr (by simp)
      | false =>
        refine .inr fun hnil => ?_
        have hall := tokens_eq_nil_iff.mp (List.append_eq_nil_iff.mp hnil).1
        simp [List.getLast?_eq_some_getLast h, hall _ (List.getLast_mem h)] at hlast }

/-- `my_basename` -/
def myBasename (path : Bytes) : Bytes :=
  match (tokens isSlash path).getLast? with
  | some name => name
  | none => if path = [] then bytes "." else bytes "/"

/-- The name that `rfd_open` tries for a number. -/
def fnameBuf (fnameIn : Bytes) (next : ℕ) : Bytes :=
  snprintf (fnameIn.length + 5) (fnameIn ++ bytes "." ++ decimal next)

/-! The file system, with names in bytes. -/

/-- What goes wrong and is only logged. -/
inductive Failure
  | unlink (e : Disk.UnlinkError)
  | symlink
  deriving DecidableEq

/-- How the process ends: it uses a stream that was not opened, or aborts for another reason. -/
inductive Fault
  | nullStream
  | abort (e : Abort)

variable {D : Type}

structure World (D : Type) where
  disk : Disk D Bytes UInt8
  failures : List Failure

/-- No operation has failed, except for the removal of names that were not there. -/
def World.Succeeds (w : World D) : Prop := ∀ e ∈ w.failures, e = .unlink .absent

namespace World

def access (w : World D) (fname : Bytes) : Bool := (path fname).any w.disk.access

/-- `fopen` for reading -/
def openRead (w : World D) (fname : Bytes) : Option ℕ := (path fname).bind w.disk.openRead

variable [DecidableEq D]

/-- `fopen` for writing -/
def openWrite (w : World D) (fname : Bytes) : Option (ℕ × World D) := do
  let (fd, disk) ← (path fname).bind w.disk.openWrite
  pure (fd, { w with disk := disk })

def unlink (w : World D) (fname : Bytes) : World D :=
  match path fname with
  | none => { w with failures := w.failures ++ [.unlink .absent] }
  | some q =>
    match w.disk.unlink q with
    | .ok disk => { w with disk := disk }
    | .error e => { w with failures := w.failures ++ [.unlink e] }

def symlink (w : World D) (target fname : Bytes) : World D :=
  match (path target).bind fun t => (path fname).bind (w.disk.symlink t) with
  | some disk => { w with disk := disk }
  | none => { w with failures := w.failures ++ [.symlink] }

end World

/-! The functions of `rotatefd.c`. -/

/-- `struct rotate_fd` -/
structure RotateFd where
  fnameReq : Bytes
  fname : Bytes
  fd : Option ℕ
  deriving DecidableEq

section Rotate
variable [DecidableEq D]

/-- The file is opened under the name found; the stream is null if that fails. -/
def rfdInit (w : World D) (fnameReq fname : Bytes) : RotateFd × World D :=
  match w.openWrite fname with
  | none => (⟨fnameReq, fname, none⟩, w)
  | some (fd, w) => (⟨fnameReq, fname, some fd⟩, w)

/-- The loop of `rfd_open`. -/
def rfdTry (w : World D) (fnameIn : Bytes) : ℕ → ℕ → Option RotateFd × World D
  | 0, _ => (none, w)
  | tries + 1, next =>
    if w.access (fnameBuf fnameIn next) then rfdTry w fnameIn tries (next + 1)
    else
      let (rfd, w) := rfdInit w fnameIn (fnameBuf fnameIn next)
      (some rfd, w)

def rfdOpen (w : World D) (fnameIn : Bytes) : Option RotateFd × World D := rfdTry w fnameIn 1000 0

/-- `fprintf` -/
def RotateFd.write (rfd : RotateFd) (w : World D) (text : Bytes) : Except Fault (World D) :=
  match rfd.fd with
  | none => .error .nullStream
  | some fd => .ok { w with disk := w.disk.append fd text }

/-- `rfd_close`; a pointer is never negative, so the links are changed in any case. -/
def rfdClose (w : World D) (rfd : Option RotateFd) : Except Fault (World D) :=
  match rfd with
  | none => .ok w
  | some rfd =>
    let targetBasename := myBasename rfd.fname
    let w := w.unlink rfd.fnameReq
    let w := w.symlink targetBasename rfd.fnameReq
    match rfd.fd with
    | none => .error .nullStream
    | some _ => .ok w

/-- What is written between `rfd_open` and `rfd_close`. -/
structure OutputRound where
  fname : Bytes
  texts : List Bytes

/-- One round. Without a free name nothing is written. -/
def runRound (w : World D) (r : OutputRound) : Except Fault (World D) :=
  match rfdOpen w r.fname with
  | (none, w) => rfdClose w none
  | (some rfd, w) => do
    let w ← r.texts.foldlM rfd.write w
    rfdClose w (some rfd)

/-! The files of `v3bw.c`. -/

/-- `node_id=$%s\tbw=%ld\n` -/
def NodeLine.text (l : NodeLine) : Bytes :=
  bytes "node_id=$" ++ l.fp ++ bytes "\tbw=" ++ decimalInt l.bw ++ bytes "\n"

/-- `v3bw_generate` after the input is opened: `input` is what there is to be read. -/
def v3bwGenerateFrom (rank : Bytes → ℕ) (now : ℕ) (input : Disk D Bytes UInt8 → Bytes)
    (outFname : Bytes) (w : World D) : Except Fault (Int × World D) :=
  match rfdOpen w outFname with
  | (none, w) => .ok (-2, w)
  | (some outRfd, w) => do
    let lines ← (v3bwGenerate rank (input w.disk)).mapError Fault.abort
    let w ← ((decimal now ++ bytes "\n") :: lines.map NodeLine.text).foldlM outRfd.write w
    let w ← rfdClose w (some outRfd)
    pure (0, w)

/-- `v3bw_generate` -/
def v3bwGenerateFile (rank : Bytes → ℕ) (now : ℕ) (inFname outFname : Bytes) (w : World D) :
    Except Fault (Int × World D) :=
  match w.openRead inFname with
  | none => .ok (-1, w)
  | some inFd => v3bwGenerateFrom rank now (fun disk => disk.content inFd) outFname w

end Rotate

end Flashflow
