import Flashflow.Library.Watch
import Flashflow.Loop.Rounds
import Flashflow.Rotatefd.Rotation

/-! What `main_loop_once` and `v3bw_generate` do with the value that `rfd_open` returns. -/
namespace Flashflow
open Sched Program Watch

/-- Whose variable `out_rfd` is. -/
inductive Caller
  | mainLoopOnce
  | v3bwGenerate
  deriving DecidableEq

inductive HandleOp
  | fname
  | write (text : Bytes)
  | close
  deriving DecidableEq

/-- A use of the value of `out_rfd`. -/
structure HandleUse where
  caller : Caller
  outRfd : Option RotateFd
  op : HandleOp
  deriving DecidableEq

/-- How a caller ends early: it follows a null pointer, or one of the other faults. -/
inductive Crash
  | nullHandle
  | fault (f : Fault)

/-- The program is watched for its uses of handles. -/
abbrev HandleM (σ : Type) := Prog (Watched σ HandleUse) Crash

variable {σ : Type}

/-- `out_rfd->fname` -/
def useFname (caller : Caller) (outRfd : Option RotateFd) : HandleM σ Unit := do
  observe ⟨caller, outRfd, .fname⟩
  match outRfd with
  | none => abort .nullHandle
  | some _ => pure ()

/-- `fprintf(out_rfd->fd, ..)` -/
def useWrite (caller : Caller) (outRfd : Option RotateFd) (text : Bytes) : HandleM σ Unit := do
  observe ⟨caller, outRfd, .write text⟩
  match outRfd with
  | none => abort .nullHandle
  | some rfd => if rfd.fd = none then abort (.fault .nullStream) else pure ()

/-- `rfd_close(out_rfd)` -/
def useClose (caller : Caller) (outRfd : Option RotateFd) : HandleM σ Unit := do
  observe ⟨caller, outRfd, .close⟩
  match outRfd with
  | none => pure ()
  | some rfd => if rfd.fd = none then abort (.fault .nullStream) else pure ()

def useWrites (caller : Caller) (outRfd : Option RotateFd) : List Bytes → HandleM σ Unit
  | [] => pure ()
  | text :: texts => do
    useWrite caller outRfd text
    useWrites caller outRfd texts

/-- A call of `v3bw_generate`: what there is to be read, if the input can be opened, and what is
answered when the output is opened. -/
structure V3bwCall where
  rank : Bytes → ℕ
  now : ℕ
  input : Option Bytes
  opens : Opens
  outFname : Bytes

/-- `v3bw_generate` -/
def V3bwCall.run (v : V3bwCall) : HandleM σ Int :=
  match v.input with
  | none => pure (-1)
  | some input =>
    match v.opens.rfdOpen v.outFname with
    | none => pure (-2)
    | some outRfd => do
      useFname .v3bwGenerate (some outRfd)
      let lines ← fromExcept ((v3bwGenerate v.rank input).mapError fun e => .fault (.abort e))
      useWrites .v3bwGenerate (some outRfd)
        ((decimal v.now ++ bytes "\n") :: lines.map NodeLine.text)
      useClose .v3bwGenerate (some outRfd)
      pure 0

/-- A call of `main_loop_once`. -/
structure OnceCall where
  round : Round
  opens : Opens
  msmOutFname : Bytes
  v3bw : V3bwCall

/-- One turn of the main loop, which may write results. -/
def resultsTurn (outRfd : Option RotateFd) : HandleM Loop Bool := do
  let before ← getState
  let res ← attempt mainLoopTurn
  let after ← getState
  useWrites .mainLoopOnce outRfd
    ((after.state.os.out.drop before.state.os.out.length).map ResultLine.render)
  fromExcept (res.mapError fun e => .fault (.abort e))

/-- `while (!sched_finished())`, for at most `n` turns. `false` is `return -1`. -/
def resultsLoop (outRfd : Option RotateFd) (n : ℕ) : HandleM Loop Bool :=
  whileFuel (.fault (.abort .diverges)) (fun _ => do
    let w ← getState
    if schedFinished w.state.co.msms then pure (.leave true)
    else if ¬ (← resultsTurn outRfd) then pure (.leave false)
    else pure (.next ())) n ()

/-- `main_loop_once` from the opening of the output on. -/
def OnceCall.record (c : OnceCall) (n : ℕ) : HandleM Loop Int := do
  let outRfd := c.opens.rfdOpen c.msmOutFname
  useFname .mainLoopOnce outRfd
  if ¬ (← resultsLoop outRfd n) then pure (-1)
  else do
    useClose .mainLoopOnce outRfd
    let _ ← c.v3bw.run
    pure 0

/-- What a call of `main_loop_once` does with handles in its first `n` turns. -/
def OnceCall.uses (c : OnceCall) (n : ℕ) : List HandleUse :=
  match c.round.start with
  | .ok (some s) => (exec (c.record n) ⟨s, []⟩).2.seen
  | _ => []

def V3bwCall.uses (v : V3bwCall) : List HandleUse :=
  (exec (v.run : HandleM Unit Int) ⟨(), []⟩).2.seen

/-! What is used. -/

section Uses
variable {p : HandleUse → Prop} {caller : Caller} {outRfd : Option RotateFd}

theorem keeps_useFname (h : ∀ op, p ⟨caller, outRfd, op⟩) :
    Keeps (Adds p) (useFname caller outRfd : HandleM σ Unit) := by
  apply keeps_bind (keeps_observe (h .fname))
  intro _
  cases outRfd with
  | none => exact keeps_abort _
  | some rfd => exact keeps_pure _

theorem keeps_useWrite (h : ∀ op, p ⟨caller, outRfd, op⟩) (text : Bytes) :
    Keeps (Adds p) (useWrite caller outRfd text : HandleM σ Unit) := by
  apply keeps_bind (keeps_observe (h (.write text)))
  intro _
  cases outRfd with
  | none => exact keeps_abort _
  | some rfd => exact keeps_ite (keeps_abort _) (keeps_pure _)

theorem keeps_useClose (h : ∀ op, p ⟨caller, outRfd, op⟩) :
    Keeps (Adds p) (useClose caller outRfd : HandleM σ Unit) := by
  apply keeps_bind (keeps_observe (h .close))
  intro _
  cases outRfd with
  | none => exact keeps_pure _
  | some rfd => exact keeps_ite (keeps_abort _) (keeps_pure _)

theorem keeps_useWrites (h : ∀ op, p ⟨caller, outRfd, op⟩) (texts : List Bytes) :
    Keeps (Adds p) (useWrites caller outRfd texts : HandleM σ Unit) := by
  induction texts with
  | nil => exact keeps_pure _
  | cons text texts ih =>
    apply keeps_bind (keeps_useWrite h text)
    intro _
    exact ih

/-- Both callers begin with the name of the file. -/
theorem mem_seen_useFname {α : Type} {f : Unit → HandleM σ α} (hf : ∀ a, Keeps (Adds p) (f a))
    (w : Watched σ HandleUse) :
    ⟨caller, outRfd, .fname⟩ ∈ (exec (useFname caller outRfd >>= f) w).2.seen := by
  cases outRfd with
  | none =>
    have hrest : ∀ u : Unit, Keeps (Adds p) (abort .nullHandle >>= f : HandleM σ α) :=
      fun _ => keeps_bind (keeps_abort _) hf
    exact mem_seen_observe hrest w
  | some rfd =>
    have hrest : ∀ u : Unit, Keeps (Adds p) (pure () >>= f : HandleM σ α) :=
      fun _ => keeps_bind (keeps_pure _) hf
    exact mem_seen_observe hrest w

end Uses

/-! `v3bw_generate` -/

section Generate
variable {p : HandleUse → Prop} {v : V3bwCall} {u : HandleUse} {rfd : RotateFd}

/-- A use of the handle that `v3bw_generate` gets. -/
def V3bwCall.Uses (v : V3bwCall) (u : HandleUse) : Prop :=
  u.caller = .v3bwGenerate ∧ v.input.isSome ∧
    u.outRfd = v.opens.rfdOpen v.outFname ∧ u.outRfd.isSome

/-- What comes after the name of the file. -/
theorem V3bwCall.keeps_rest (h : ∀ op, p ⟨.v3bwGenerate, some rfd, op⟩) (input : Bytes) :
    Keeps (Adds p) (do
      let lines ← fromExcept ((v3bwGenerate v.rank input).mapError fun e => .fault (.abort e))
      useWrites .v3bwGenerate (some rfd)
        ((decimal v.now ++ bytes "\n") :: lines.map NodeLine.text)
      useClose .v3bwGenerate (some rfd)
      pure 0 : HandleM σ Int) := by
  refine keeps_bind (keeps_fromExcept _) fun _ => ?_
  refine keeps_bind (keeps_useWrites h _) fun _ => ?_
  exact keeps_bind (keeps_useClose h) fun _ => keeps_pure _

theorem V3bwCall.keeps_run (h : ∀ u, v.Uses u → p u) :
    Keeps (Adds p) (v.run : HandleM σ Int) := by
  unfold V3bwCall.run
  split
  · exact keeps_pure _
  next input hinput =>
  split
  · exact keeps_pure _
  next outRfd hopen =>
  have hp : ∀ op, p ⟨.v3bwGenerate, some outRfd, op⟩ :=
    fun op => h _ ⟨rfl, by simp [hinput], hopen.symm, rfl⟩
  exact keeps_bind (keeps_useFname hp) fun _ => V3bwCall.keeps_rest hp input

theorem V3bwCall.of_mem_uses (h : u ∈ v.uses) : v.Uses u :=
  seen_of_keeps (v.keeps_run fun _ h => h) () u h

theorem V3bwCall.mem_uses (hinput : v.input.isSome)
    (hopen : v.opens.rfdOpen v.outFname = some rfd) :
    ⟨.v3bwGenerate, some rfd, .fname⟩ ∈ v.uses := by
  have hp : ∀ op, v.Uses ⟨.v3bwGenerate, some rfd, op⟩ := fun _ => ⟨rfl, hinput, hopen.symm, rfl⟩
  obtain ⟨input, hinput⟩ := Option.isSome_iff_exists.mp hinput
  unfold V3bwCall.uses V3bwCall.run
  simp only [hinput, hopen]
  exact mem_seen_useFname (fun _ => V3bwCall.keeps_rest hp input) _

theorem V3bwCall.Uses.isOpen (h : v.Uses u)
    (hopens : v.input.isSome → v.opens.FirstOpens v.outFname) : IsOpen u.outRfd := by
  obtain ⟨-, hinput, hhandle, hsome⟩ := h
  rw [hhandle] at hsome ⊢
  rcases Opens.reported_iff.mpr (hopens hinput) with hnone | hopen
  · simp [hnone] at hsome
  · exact hopen

/-- The null check leaves one case out, a free name that cannot be opened. -/
theorem V3bwCall.uses_open_iff : (∀ u ∈ v.uses, IsOpen u.outRfd) ↔
    (v.input.isSome → v.opens.FirstOpens v.outFname) := by
  constructor
  · intro h hinput
    apply Opens.reported_iff.mp
    cases hopen : v.opens.rfdOpen v.outFname with
    | none => exact .inl rfl
    | some rfd => exact .inr (h _ (V3bwCall.mem_uses hinput hopen))
  · intro h u hu
    exact (V3bwCall.of_mem_uses hu).isOpen h

/-- The call on a file system. -/
def World.v3bwCall {D : Type} [DecidableEq D] (w : World D) (rank : Bytes → ℕ) (now : ℕ)
    (inFname outFname : Bytes) : V3bwCall where
  rank := rank
  now := now
  input := (w.openRead inFname).map (rfdOpen w outFname).2.disk.content
  opens := w.opens
  outFname := outFname

theorem exec_useWrites (caller : Caller) {i : ℕ} (hfd : rfd.fd = some i) (texts : List Bytes)
    (s : Watched σ HandleUse) :
    ∃ s', exec (useWrites caller (some rfd) texts) s = (.ok (), s') := by
  induction texts generalizing s with
  | nil => exact ⟨s, rfl⟩
  | cons text texts ih =>
    have hwrite : exec (useWrite caller (some rfd) text) s =
        (.ok (), { s with seen := s.seen ++ [⟨caller, some rfd, .write text⟩] }) := by
      simp only [useWrite, hfd]
      rfl
    rw [useWrites, exec_bind, hwrite]
    exact ih _

theorem exec_useClose (caller : Caller) {i : ℕ} (hfd : rfd.fd = some i)
    (s : Watched σ HandleUse) : exec (useClose caller (some rfd)) s =
      (.ok (), { s with seen := s.seen ++ [⟨caller, some rfd, .close⟩] }) := by
  simp only [useClose, hfd]
  rfl

/-- On the files an open handle is written to and closed as well. -/
theorem output_ok {D : Type} [DecidableEq D] {i : ℕ} (hfd : rfd.fd = some i) (w : World D)
    (texts : List Bytes) : (do
      let w ← texts.foldlM rfd.write w
      let w ← rfdClose w (some rfd)
      pure ((0 : Int), w)).map Prod.fst = (.ok 0 : Except Fault Int) := by
  rw [writes_eq hfd w]
  simp only [rfdClose, hfd, bind, Except.bind]
  rfl

/-- It ends as it does on the files. -/
theorem World.v3bwCall_run {D : Type} [DecidableEq D] (w : World D) (rank : Bytes → ℕ) (now : ℕ)
    (inFname outFname : Bytes) (s : Watched σ HandleUse) :
    (exec (w.v3bwCall rank now inFname outFname).run s).1 =
      ((v3bwGenerateFile rank now inFname outFname w).map Prod.fst).mapError Crash.fault := by
  have hfst : w.opens.rfdOpen outFname = (rfdOpen w outFname).1 := by
    rw [rfdOpen_opens]
    cases w.opens.rfdOpen outFname <;> rfl
  unfold V3bwCall.run World.v3bwCall v3bwGenerateFile v3bwGenerateFrom
  cases w.openRead inFname with
  | none => rfl
  | some inFd =>
    simp only [Option.map_some, hfst]
    rcases rfdOpen w outFname with ⟨_ | outRfd, w₁⟩
    · rfl
    · simp only
      cases v3bwGenerate rank (w₁.disk.content inFd) with
      | error e => rfl
      | ok lines =>
        have hname : exec (useFname .v3bwGenerate (some outRfd)) s = (.ok (),
          { s with seen := s.seen ++ [⟨.v3bwGenerate, some outRfd, .fname⟩] }) := rfl
        simp only [Except.mapError, fromExcept_ok, pure_bind, exec_bind, hname]
        cases hfd : outRfd.fd with
        | none =>
          simp only [List.foldlM_cons, RotateFd.write, hfd, useWrites, useWrite]
          rfl
        | some i =>
          obtain ⟨s', hwrites⟩ := exec_useWrites .v3bwGenerate hfd
            ((decimal now ++ bytes "\n") :: lines.map NodeLine.text)
            { s with seen := s.seen ++ [⟨.v3bwGenerate, some outRfd, .fname⟩] }
          simp only [hwrites, exec_useClose _ hfd]
          exact (congrArg (Except.mapError Crash.fault) (output_ok hfd w₁ _)).symm

end Generate

/-! `main_loop_once` -/

section Once
variable {p : HandleUse → Prop} {c : OnceCall} {n : ℕ} {u : HandleUse} {s : Loop}

theorem keeps_resultsTurn {outRfd : Option RotateFd} (h : ∀ op, p ⟨.mainLoopOnce, outRfd, op⟩) :
    Keeps (Adds p) (resultsTurn outRfd) := by
  refine keeps_bind keeps_getState fun _ => ?_
  refine keeps_bind (keeps_attempt _) fun _ => ?_
  refine keeps_bind keeps_getState fun _ => ?_
  exact keeps_bind (keeps_useWrites h _) fun _ => keeps_fromExcept _

theorem keeps_resultsLoop {outRfd : Option RotateFd} (h : ∀ op, p ⟨.mainLoopOnce, outRfd, op⟩)
    (n : ℕ) : Keeps (Adds p) (resultsLoop outRfd n) := by
  refine keeps_whileFuel (fun _ => ?_) n ()
  refine keeps_bind keeps_getState fun _ => keeps_ite (keeps_pure _) ?_
  exact keeps_bind (keeps_resultsTurn h) fun _ => keeps_ite (keeps_pure _) (keeps_pure _)

/-- A use of the handle that `main_loop_once` gets, or of the one of `v3bw_generate`. -/
def OnceCall.Uses (c : OnceCall) (u : HandleUse) : Prop :=
  (u.caller = .mainLoopOnce ∧ u.outRfd = c.opens.rfdOpen c.msmOutFname) ∨ c.v3bw.Uses u

theorem OnceCall.uses_own (op : HandleOp) :
    c.Uses ⟨.mainLoopOnce, c.opens.rfdOpen c.msmOutFname, op⟩ := .inl ⟨rfl, rfl⟩

/-- What comes after the name of the file. -/
theorem OnceCall.keeps_rest : Keeps (Adds c.Uses) (do
    if ¬ (← resultsLoop (c.opens.rfdOpen c.msmOutFname) n) then pure (-1)
    else do
      useClose .mainLoopOnce (c.opens.rfdOpen c.msmOutFname)
      let _ ← c.v3bw.run
      pure 0 : HandleM Loop Int) := by
  refine keeps_bind (keeps_resultsLoop OnceCall.uses_own n) fun _ => keeps_ite (keeps_pure _) ?_
  refine keeps_bind (keeps_useClose OnceCall.uses_own) fun _ => ?_
  exact keeps_bind (c.v3bw.keeps_run fun _ => .inr) fun _ => keeps_pure _

theorem OnceCall.of_mem_uses (h : u ∈ c.uses n) :
    (∃ s, c.round.start = .ok (some s)) ∧ c.Uses u := by
  have hrecord : Keeps (Adds c.Uses) (c.record n) :=
    keeps_bind (keeps_useFname OnceCall.uses_own) fun _ => OnceCall.keeps_rest
  unfold OnceCall.uses at h
  split at h
  next s hs => exact ⟨⟨s, hs⟩, seen_of_keeps hrecord s u h⟩
  next => cases h

theorem OnceCall.mem_uses (hs : c.round.start = .ok (some s)) :
    ⟨.mainLoopOnce, c.opens.rfdOpen c.msmOutFname, .fname⟩ ∈ c.uses n := by
  unfold OnceCall.uses
  rw [hs]
  exact mem_seen_useFname (fun _ => OnceCall.keeps_rest) _

/-- There is no check at all. -/
theorem OnceCall.uses_open_iff : (∀ u ∈ c.uses n, u.caller = .mainLoopOnce → IsOpen u.outRfd) ↔
    ∀ s, c.round.start = .ok (some s) →
      c.opens.HasFree c.msmOutFname ∧ c.opens.FirstOpens c.msmOutFname := by
  rw [← Opens.isOpen_iff]
  constructor
  · intro h s hs
    exact h _ (OnceCall.mem_uses hs) rfl
  · intro h u hu hcaller
    obtain ⟨⟨s, hs⟩, ⟨-, hhandle⟩ | ⟨hgenerate, -⟩⟩ := OnceCall.of_mem_uses hu
    · rw [hhandle]
      exact h s hs
    · rw [hcaller] at hgenerate
      cases hgenerate

end Once

/-- What `rfd_open` returns is null or open if and only if no free name that it comes upon fails to
open. `v3bw_generate` then uses open handles only; `main_loop_once` uses the null handle as well, so
there has to be a free name too. -/
theorem handles_open (o : Opens) (f : Bytes) (v : V3bwCall) (c : OnceCall) (n : ℕ) :
    (o.rfdOpen f = none ∨ IsOpen (o.rfdOpen f) ↔ o.FirstOpens f) ∧
    ((∀ u ∈ v.uses, IsOpen u.outRfd) ↔ (v.input.isSome → v.opens.FirstOpens v.outFname)) ∧
    ((∀ u ∈ c.uses n, u.caller = .mainLoopOnce → IsOpen u.outRfd) ↔
      ∀ s, c.round.start = .ok (some s) →
        c.opens.HasFree c.msmOutFname ∧ c.opens.FirstOpens c.msmOutFname) ∧
    ∀ u ∈ c.uses n, u.caller = .v3bwGenerate →
      (c.v3bw.input.isSome → c.v3bw.opens.FirstOpens c.v3bw.outFname) → IsOpen u.outRfd := by
  refine ⟨Opens.reported_iff, V3bwCall.uses_open_iff, OnceCall.uses_open_iff, ?_⟩
  intro u hu hcaller hopens
  obtain ⟨-, ⟨hown, -⟩ | huse⟩ := OnceCall.of_mem_uses hu
  · rw [hcaller] at hown
    cases hown
  · exact huse.isOpen hopens

/-- A directory without files in which none can be made. -/
def readOnly : Opens where
  access _ := false
  fopen _ := none

/-- A directory that has all the files `out.0` to `out.999`. -/
def allTaken : Opens where
  access f := decide (f ∈ (List.range 1000).map (numbered (bytes "out")))
  fopen _ := some 0

def readOnlyCall : V3bwCall where
  rank _ := 0
  now := 0
  input := some []
  opens := readOnly
  outFname := bytes "v3bw"

def allTakenCall : OnceCall where
  round := twoClients
  opens := allTaken
  msmOutFname := bytes "out"
  v3bw := readOnlyCall

/-- The output is to be made in a directory that is not there. -/
def missingDirectory : V3bwCall :=
  World.v3bwCall (⟨exampleDisk, []⟩ : World Unit) (fun _ => 0) 0 (bytes "msm.1") (bytes "no/v3bw")

/-- The names cannot be opened, or all of them are taken. Where the directory is missing the file
system runs into the null stream as well. -/
theorem handles_not_open :
    ¬ (readOnly.rfdOpen (bytes "v3bw") = none ∨ IsOpen (readOnly.rfdOpen (bytes "v3bw"))) ∧
    (∃ u ∈ readOnlyCall.uses, ¬ IsOpen u.outRfd) ∧
    (∃ u ∈ allTakenCall.uses 1, u.caller = .mainLoopOnce ∧ u.outRfd = none) ∧
    (exec missingDirectory.run (⟨(), []⟩ : Watched Unit HandleUse)).1 =
      .error (.fault .nullStream) := by
  have hreadOnly : readOnly.rfdOpen (bytes "v3bw") = some ⟨bytes "v3bw", bytes "v3bw.0", none⟩ := by
    decide +kernel
  have hclosed : ¬ IsOpen (readOnly.rfdOpen (bytes "v3bw")) := by
    rintro ⟨rfd, fd, hrfd, hfd⟩
    rw [hreadOnly] at hrfd
    cases hrfd
    cases hfd
  have htaken : allTaken.rfdOpen (bytes "out") = none := by
    apply Opens.rfdOpen_eq_none
    rintro ⟨n, hn, hfree⟩
    simp only [allTaken, decide_eq_false_iff_not] at hfree
    exact hfree (List.mem_map_of_mem (List.mem_range.mpr hn))
  have hused : ⟨.mainLoopOnce, allTaken.rfdOpen (bytes "out"), .fname⟩ ∈ allTakenCall.uses 1 :=
    OnceCall.mem_uses (s := twoClientsStart) rfl
  rw [htaken] at hused
  have hcrash : (v3bwGenerateFile (fun _ => 0) 0 (bytes "msm.1") (bytes "no/v3bw")
      (⟨exampleDisk, []⟩ : World Unit)).map Prod.fst = .error .nullStream := rfl
  refine ⟨?_, ⟨_, V3bwCall.mem_uses rfl hreadOnly, ?_⟩, ⟨_, hused, rfl, rfl⟩, ?_⟩
  · rintro (hnone | hopen)
    · rw [hreadOnly] at hnone
      cases hnone
    · exact hclosed hopen
  · rw [← hreadOnly]
    exact hclosed
  · rw [missingDirectory, World.v3bwCall_run, hcrash]
    rfl

end Flashflow
