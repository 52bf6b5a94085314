import Flashflow.Library.Program
import Flashflow.Loop.Params
import Flashflow.Torclient.ClientFile
import Flashflow.Torclient.Control
import Flashflow.Torclient.Output

/-! The main loop of the coordinator. Everything the operating system, the clock and the iteration
order of the scheduler's table decide is read from a script; any script is legal, since a proposed
descriptor is only used if it is free and a proposed event only if it is registered. -/
namespace Flashflow
open Sched Program Outcome

/-- What is decided from outside in one interaction. `none` is an error return. -/
structure Answer where
  rank : UInt32 → ℕ
  now : EpochSecs
  time : Option Timeval
  socket : Option ℕ
  resolved : Bool
  connected : Bool
  sent : Option ℕ
  recv : Option Bytes
  stale : ℕ → UInt8
  ready : Option (List Int)

/-- The four steps of a measurement: `AUTHENTICATE`, `TESTSPEED <fp>`, `RESETCONF` and
`TESTSPEED <dur>`, each with the handler that confirms it. -/
inductive Phase where
  | auth | connect | setBw | measure
  deriving DecidableEq, Repr

/-- The history: measurements started, clients claimed for them, commands sent, phases confirmed by
the reply handlers, and how measurements ended. -/
inductive Event where
  | started (m : UInt32)
  | claimed (c : ℕ) (m : UInt32)
  | sent (c : ℕ) (m : UInt32) (p : Phase)
  | confirmed (c : ℕ) (m : UInt32) (p : Phase)
  | failed (m : UInt32)
  | succeeded (m : UInt32)
  deriving DecidableEq, Repr

structure Os where
  script : ℕ → Answer
  tick : ℕ
  out : List ResultLine

/-- The variables of `main_loop_once`, the scheduler's table and the open descriptors. `metas` is
`metas[0..num_tor_clients)` and `known` is `known_m_ids[0..num_known_m_ids)`. `strays` are the
descriptors reported as not in any of the sets. -/
structure Coord where
  metas : List Meta
  openFds : List ℕ
  msms : Msms
  known : List UInt32
  loopsWithoutProgress : ℕ
  countSuccess : ℕ
  countFailure : ℕ
  strays : List Int
  trace : List Event

structure Loop where
  os : Os
  co : Coord

abbrev LoopM := Prog Loop Abort

/-! Access to the parts of the state. -/

def answer : LoopM Answer := do
  let s ← getState
  modifyState fun s => { s with os := { s.os with tick := s.os.tick + 1 } }
  pure (s.os.script s.os.tick)

def co : LoopM Coord := do
  let s ← getState
  pure s.co

def modifyCo (f : Coord → Coord) : LoopM Unit := modifyState fun s => { s with co := f s.co }

def record (e : Event) : LoopM Unit := modifyCo fun s => { s with trace := s.trace ++ [e] }

/-- `metas[c]` -/
def metaAt (c : ℕ) : LoopM Meta := do
  match (← co).metas[c]? with
  | some x => pure x
  | none => abort .outOfBounds

def setMeta (c : ℕ) (x : Meta) : LoopM Unit :=
  modifyCo fun s => { s with metas := s.metas.set c x }

/-- A call into the scheduler library. -/
def schedCall {α : Type} (f : Msms → Except Panic (α × Msms)) : LoopM α := do
  let s ← co
  let (a, msms) ← fromExcept ((f s.msms).mapError .panic)
  modifyCo fun s => { s with msms := msms }
  pure a

def markDone (m : UInt32) : LoopM Unit :=
  schedCall fun s => (schedMarkDone m s).map fun s => ((), s)

def countFailed : LoopM Unit := modifyCo fun s => { s with countFailure := s.countFailure + 1 }

def numMetas : LoopM ℕ := do
  let s ← co
  pure s.metas.length

def fillParams (m : UInt32) : LoopM (Bool × MsmParams) := do
  let s ← co
  fromExcept ((fillMsmParams m s.msms).mapError .panic)

/-- `assert(fill_msm_params(&p, m_id))` -/
def assertFillParams (m : UInt32) : LoopM MsmParams := do
  let (ok, p) ← fillParams m
  fromExcept (failIf (¬ ok) .assertFillMsmParams)
  pure p

def assertState (c : ℕ) (st : CsmState) : LoopM Unit := do
  let x ← metaAt c
  fromExcept (tcAssertState x st)

/-! The client functions on `&metas[c]`. -/

/-- A descriptor that is not open: the proposed one if possible. -/
def freshFd (openFds : List ℕ) (n : ℕ) : ℕ :=
  if n ∈ openFds then openFds.foldl max 0 + 1 else n

/-- `tc_make_socket(&metas[c])` -/
def makeSocket (c : ℕ) : LoopM Int := do
  let a ← answer
  let s ← co
  let socket := a.socket.map (freshFd s.openFds)
  let x ← metaAt c
  let (ret, x) ← fromExcept (tcMakeSocket socket a.resolved a.connected x)
  modifyCo fun s => { s with openFds := socket.toList ++ s.openFds }
  setMeta c x
  pure ret

/-- Send a command to client `c`. -/
def command (p : Phase) (f : Option ℕ → Meta → Except Abort (Bool × Bytes × Meta)) (c : ℕ) :
    LoopM Bool := do
  let a ← answer
  let x ← metaAt c
  let (ok, _, x') ← fromExcept (f a.sent x)
  setMeta c x'
  if ok then record (.sent c x.currentMId p)
  pure ok

def authSocket : ℕ → LoopM Bool := command .auth tcAuthSocket

def tellConnect (fp : Bytes) (conns : UInt32) : ℕ → LoopM Bool :=
  command .connect (tcTellConnect fp conns)

def setBwRate (bw : UInt32) : ℕ → LoopM Bool := command .setBw (tcSetBwRate bw)

def startMeasurement (dur : UInt32) : ℕ → LoopM Bool := command .measure (tcStartMeasurement dur)

/-- Read a reply of client `c`. -/
def reply (p : Phase) (f : Option Bytes → (ℕ → UInt8) → Meta → Except Abort (Bool × Meta)) (c : ℕ) :
    LoopM Bool := do
  let a ← answer
  let x ← metaAt c
  let (ok, x') ← fromExcept (f (a.recv.map (·.take readBufLen)) a.stale x)
  setMeta c x'
  if ok then record (.confirmed c x.currentMId p)
  pure ok

def authedSocket : ℕ → LoopM Bool := reply .auth tcAuthedSocket

def connectedSocket : ℕ → LoopM Bool := reply .connect tcConnectedSocket

def didSetBwRate : ℕ → LoopM Bool := reply .setBw tcDidSetBwRate

/-- `tc_output_result(&metas[c], p.id, p.fp, out_rfd->fd)` -/
def outputResult (p : MsmParams) (c : ℕ) : LoopM Bool := do
  let a ← answer
  let x ← metaAt c
  let (ok, lines, x') ←
    fromExcept (tcOutputResult p.id p.fp a.time (a.recv.map (·.take readBufLen)) x)
  setMeta c x'
  modifyState fun s => { s with os := { s.os with out := s.os.out ++ lines } }
  if x'.state = .done then record (.confirmed c x.currentMId .measure)
  pure ok

def markFailed (c : ℕ) : LoopM Unit := do
  let x ← metaAt c
  let x ← fromExcept (tcMarkFailed x)
  setMeta c x

def closeFd (fd : Int) : LoopM Unit :=
  modifyCo fun s => { s with openFds := s.openFds.filter fun n => (n : Int) ≠ fd }

def finishedWithMeta (c : ℕ) : LoopM Unit := do
  let x ← metaAt c
  let (closed, x) ← fromExcept (tcFinishedWithMeta x)
  setMeta c x
  match closed with
  | some fd => closeFd fd
  | none => pure ()

/-- `tc_next_available` -/
def nextAvailable (cls : Bytes) : LoopM (Option ℕ) := do
  let n ← numMetas
  let r ← forRange n () fun i _ => do
    let x ← metaAt i
    if x.cls = cls ∧ x.currentMId = 0 then do
      let s ← makeSocket i
      if s < 0 then pure (.next ()) else pure (.leave i)
    else pure (.next ())
  match r with
  | .next _ => pure none
  | .leave i => pure (some i)

/-! The functions of `flashflow.c`. -/

/-- `ids[i] = ids[--num]` -/
def swapRemove (ids : List UInt32) (i : ℕ) : List UInt32 := (ids.set i (ids.getLastD 0)).dropLast

/-- The loop at the end of `measurement_failed_`. -/
def removeKnown (m : UInt32) (ids : List UInt32) : List UInt32 :=
  match ids.findIdx? (fun id => id = m) with
  | none => ids
  | some i => swapRemove ids i

/-- `measurement_failed` -/
def measurementFailed (m : UInt32) : LoopM Unit := do
  record (.failed m)
  let n ← numMetas
  forEach (fun c => do
    let x ← metaAt c
    if x.currentMId = m then do
      markFailed c
      finishedWithMeta c) n
  markDone m
  modifyCo fun s => { s with known := removeKnown m s.known }

/-- The loop of `find_and_connect_metas`. -/
def claimAll (m : UInt32) : List Slot → LoopM Bool
  | [] => pure true
  | slot :: rest => do
    match ← nextAvailable slot.cls with
    | none => pure false
    | some c => do
      let x ← metaAt c
      setMeta c { x with currentMId := m }
      record (.claimed c m)
      claimAll m rest

def findAndConnectMetas (m : UInt32) : LoopM Bool := do
  let (ok, p) ← fillParams m
  if ¬ ok then pure false else claimAll m p.slots

/-- One turn of the loop of `send_auth_metas`. -/
def authTurn (m : UInt32) (c : ℕ) : LoopM (Turn Unit Unit) := do
  let x ← metaAt c
  if x.currentMId ≠ m then pure (.next ())
  else do
    assertState c .connected
    if ¬ (← authSocket c) then pure (.leave ()) else pure (.next ())

def sendAuthMetas (m : UInt32) : LoopM Bool := do
  let n ← numMetas
  let r ← forRange n () fun c _ => authTurn m c
  match r with
  | .next _ => pure true
  | .leave _ => pure false

/-- The common body of the four `is_totally_` functions. -/
def isTotally (st : CsmState) (m : UInt32) : LoopM Bool := do
  let s ← co
  pure (s.metas.all fun x => x.currentMId ≠ m || x.state = st)

def isTotallyAuthed : UInt32 → LoopM Bool := isTotally .authed

def isTotallyConnectedTarget : UInt32 → LoopM Bool := isTotally .connectedTarget

def isTotallyBwSet : UInt32 → LoopM Bool := isTotally .bwSet

def isTotallyDone : UInt32 → LoopM Bool := isTotally .done

/-! The stages of one turn of the main loop. -/

/-- `MAX_LOOPS_WITHOUT_PROGRESS` -/
def maxLoopsWithoutProgress : ℕ := 10

/-- Fail all existing measurements after too many loops without progress. -/
def giveUp : LoopM Unit := do
  let s ← co
  if s.loopsWithoutProgress > maxLoopsWithoutProgress then do
    whileFuel .diverges (fun _ => do
      let s ← co
      match s.known.getLast? with
      | none => pure (.leave ())
      | some m => do
        measurementFailed m
        countFailed
        pure (.next ())) (s.known.length + 1) ()
    modifyCo fun s => { s with loopsWithoutProgress := 0 }

/-- Fail the measurements that have gone on for too long. `tv_sec` is compared as unsigned. -/
def failsafeScan : LoopM Unit := do
  let s ← co
  whileFuel .diverges (fun i => do
    let s ← co
    match s.known[i]? with
    | none => pure (.leave ())
    | some m => do
      let p ← assertFillParams m
      match (← answer).time with
      | none => abort .assertGettimeofday
      | some now =>
        if now.tvSec.toUInt64 > p.failsafeStop then do
          measurementFailed m
          countFailed
          pure (.next i)
        else pure (.next (i + 1))) (s.known.length + 1) 0

/-- Start at most one new measurement. -/
def startNew : LoopM Unit := do
  let a ← answer
  let m ← schedCall (schedNext a.rank a.now)
  if m > 0 then do
    record (.started m)
    if ¬ (← findAndConnectMetas m) then do
      measurementFailed m
      countFailed
    else do
      modifyCo fun s => { s with known := s.known ++ [m] }
      if ¬ (← sendAuthMetas m) then do
        measurementFailed m
        countFailed

/-- Tell client `j`, if it works for the measurement, about the first unassigned host of its class.
Leaves when the command cannot be sent. -/
def assignTurn (m : UInt32) (st : CsmState) (tell : Slot → ℕ → LoopM Bool) (j : ℕ)
    (p : MsmParams) : LoopM (Turn MsmParams Unit) := do
  let x ← metaAt j
  if x.currentMId = m then
    match slots.firstFree p.slots x.cls with
    | none => pure (.next p)
    | some k =>
      match p.slots[k]? with
      | none => abort .outOfBounds
      | some slot => do
        if ¬ (← tell slot j) then pure (.leave ())
        else do
          assertState j st
          pure (.next { p with slots := p.slots.modify k slots.take })
  else pure (.next p)

/-- Tell all clients of the measurement. -/
def assignPass (m : UInt32) (st : CsmState) (tell : Slot → ℕ → LoopM Bool) (p : MsmParams) :
    LoopM (Turn MsmParams Unit) := do
  let n ← numMetas
  forRange n p (assignTurn m st tell)

/-- A pass, then `assert(p.m_assigned[j])` for all hosts. `none` is `goto main_loop_end`, after the
measurement has been failed. -/
def passOrFail (m : UInt32) (st : CsmState) (tell : Slot → ℕ → LoopM Bool) (p : MsmParams) :
    LoopM (Option MsmParams) := do
  match ← assignPass m st tell p with
  | .leave _ => do
    measurementFailed m
    countFailed
    pure none
  | .next p => do
    fromExcept (failIf (∃ slot ∈ p.slots, slot.assigned = false) .assertAssigned)
    pure (some p)

/-- authed: tell connect to target -/
def connectStage (m : UInt32) (p : MsmParams) : LoopM (Option MsmParams) := do
  if ← isTotallyAuthed m then
    passOrFail m .toldConnectTarget (fun slot => tellConnect p.fp slot.nconn) p
  else pure (some p)

/-- connected to target: set bw -/
def setBwStage (m : UInt32) (p : MsmParams) : LoopM (Option MsmParams) := do
  if ← isTotallyConnectedTarget m then
    passOrFail m .settingBw (fun slot => setBwRate slot.bw) p
  else pure (some p)

/-- Tell client `j` to start measuring, if it works for the measurement. -/
def startTurn (m dur : UInt32) (j numTold : ℕ) : LoopM (Turn ℕ Unit) := do
  let x ← metaAt j
  if x.currentMId = m then do
    if ¬ (← startMeasurement dur j) then pure (.leave ())
    else do
      assertState j .measuring
      pure (.next (numTold + 1))
  else pure (.next numTold)

/-- bw is set: start measurement. `false` is `goto main_loop_end`. -/
def startStage (m : UInt32) (p : MsmParams) : LoopM Bool := do
  if ← isTotallyBwSet m then do
    let a ← answer
    schedCall fun s => (schedResetFailsafeStop a.now m s).map fun s => ((), s)
    let n ← numMetas
    match ← forRange n 0 (startTurn m p.dur) with
    | .leave _ => do
      measurementFailed m
      countFailed
      pure false
    | .next numTold => do
      fromExcept (failIf (numTold ≠ p.slots.length) .assertNumTold)
      pure true
  else pure true

/-- done measuring. `true` if the measurement at index `i` was taken out. -/
def doneStage (i : ℕ) (m : UInt32) : LoopM Bool := do
  if ← isTotallyDone m then do
    record (.succeeded m)
    let n ← numMetas
    forEach (fun c => do
      let x ← metaAt c
      if x.currentMId = m then do
        assertState c .done
        finishedWithMeta c) n
    markDone m
    modifyCo fun s => { s with known := swapRemove s.known i, countSuccess := s.countSuccess + 1 }
    pure true
  else pure false

/-- One turn of the loop over the known measurements; leaves with `false` on `goto
main_loop_end`. -/
def advanceTurn (i : ℕ) : LoopM (Turn ℕ Bool) := do
  let s ← co
  match s.known[i]? with
  | none => pure (.leave true)
  | some m => do
    let p ← assertFillParams m
    match ← connectStage m p with
    | none => pure (.leave false)
    | some p =>
      match ← setBwStage m p with
      | none => pure (.leave false)
      | some p =>
        if ¬ (← startStage m p) then pure (.leave false)
        else if ← doneStage i m then pure (.next i)
        else pure (.next (i + 1))

def advance : LoopM Bool := do
  let s ← co
  whileFuel .diverges advanceTurn (s.known.length + 1) 0

/-- The four arrays of descriptors that wait for something. -/
structure FdSets where
  authing : List Int
  connecting : List Int
  settingBw : List Int
  measuring : List Int

def fdsIn (st : CsmState) (metas : List Meta) : List Int :=
  (metas.filter fun x => x.state = st).map Meta.fd

def fdSets (metas : List Meta) : FdSets where
  authing := fdsIn .authing metas
  connecting := fdsIn .toldConnectTarget metas
  settingBw := fdsIn .settingBw metas
  measuring := fdsIn .measuring metas

/-- What is registered with epoll. -/
def FdSets.interesting (f : FdSets) : List Int :=
  f.authing ++ f.connecting ++ f.settingBw ++ f.measuring

/-- `epoll_wait`: registered descriptors, each at most once. -/
def epollWait (registered : List Int) : LoopM (Option (List Int)) := do
  let a ← answer
  pure (a.ready.map fun fds => ((fds.filter (· ∈ registered)).dedup).take maxNumCtrlSocks)

/-- A reply handler and what follows it. `false` is `goto main_loop_end`, after the measurement has
been failed. -/
def onReply (st : CsmState) (handler : ℕ → LoopM Bool) (c : ℕ) : LoopM Bool := do
  if ¬ (← handler c) then do
    let x ← metaAt c
    measurementFailed x.currentMId
    countFailed
    pure false
  else do
    assertState c st
    pure true

/-- The handler for one event, of client `c`. -/
def handleEvent (f : FdSets) (c : ℕ) : LoopM Bool := do
  let x ← metaAt c
  if x.fd ∈ f.authing then onReply .authed authedSocket c
  else if x.fd ∈ f.connecting then onReply .connectedTarget connectedSocket c
  else if x.fd ∈ f.settingBw then onReply .bwSet didSetBwRate c
  else if x.fd ∈ f.measuring then do
    let p ← assertFillParams x.currentMId
    if ¬ (← outputResult p c) then do
      let x ← metaAt c
      measurementFailed x.currentMId
      countFailed
      pure false
    else pure true
  else do
    modifyCo fun s => { s with strays := s.strays ++ [x.fd] }
    pure true

/-- The loop over the events. `false` is `return -1`: no client has the descriptor. -/
def handleEvents (f : FdSets) : List Int → LoopM Bool
  | [] => pure true
  | fd :: rest => do
    let s ← co
    match s.metas.findIdx? (fun x => x.fd = fd) with
    | none => pure false
    | some c => do
      if ¬ (← handleEvent f c) then pure true else handleEvents f rest

/-- The part of the main loop from the descriptor sets on. -/
def pollStage : LoopM Bool := do
  let s ← co
  let f := fdSets s.metas
  if f.interesting = [] then pure true
  else do
    match ← epollWait f.interesting with
    | none | some [] => do
      modifyCo fun s => { s with loopsWithoutProgress := s.loopsWithoutProgress + 1 }
      pure true
    | some fds => do
      modifyCo fun s => { s with loopsWithoutProgress := 0 }
      handleEvents f fds

/-- One turn of `while (!sched_finished())`. `false` is `return -1`. -/
def mainLoopTurn : LoopM Bool := do
  giveUp
  failsafeScan
  startNew
  if ¬ (← advance) then pure true else pollStage

/-- A turn of the main loop that comes back to its head. -/
def LoopStep (s s' : Loop) : Prop :=
  schedFinished s.co.msms = false ∧ exec mainLoopTurn s = (.ok true, s')

/-- What a call of `main_loop_once` starts from: the two input files, the table and the descriptors
that earlier calls left, and what the outside will do. -/
structure Round where
  clientFile : Bytes
  lines : List Text
  base : Msms
  openFds : List ℕ
  rank : UInt32 → ℕ
  os : Os

/-- `main_loop_once` up to the main loop; `none` is `return -1`. -/
def Round.start (r : Round) : Except Abort (Option Loop) := do
  let metas ← tcClientFileRead r.clientFile
  if metas.length < 1 then pure none
  else do
    let (msms, countTotal) ← (schedNew r.rank r.base r.lines).mapError .panic
    if countTotal = 0 then pure none
    else pure (some {
      os := r.os
      co := { metas := metas, openFds := r.openFds, msms := msms, known := [],
              loopsWithoutProgress := 0, countSuccess := 0, countFailure := 0, strays := [],
              trace := [] } })

end Flashflow
