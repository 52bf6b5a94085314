import Flashflow.Loop.Frame

/-! The main loop statement by statement. Between two statements the loop is at a point of its
code, and a move runs the next statement. Every turn of the main loop is a chain of moves. -/
namespace Flashflow
open Sched Program Outcome

/-- The two stages with an assignment pass. -/
inductive Pass where
  | connect | setBw
  deriving DecidableEq, Repr

def Pass.phase : Pass → Phase
  | .connect => .connect
  | .setBw => .setBw

/-- What a client is told in the pass about the host of `slot`. -/
def Pass.message (fp : Bytes) : Pass → Slot → Option ℕ → Meta → Except Abort (Bool × Bytes × Meta)
  | .connect, slot => tcTellConnect fp slot.nconn
  | .setBw, slot => tcSetBwRate slot.bw

def Pass.tell (a : Pass) (fp : Bytes) (slot : Slot) : ℕ → LoopM Bool :=
  command a.phase (a.message fp slot)

/-- The points in the code of the main loop, each with the local variables that are live there. -/
inductive Point where
  /-- The test of `while (!sched_finished())`. -/
  | head
  /-- The loop that fails everything. -/
  | giveUp
  /-- The loop over the failsafe times. -/
  | scan (i : ℕ)
  /-- Before `sched_next`. -/
  | pick
  /-- Before `find_and_connect_metas`. -/
  | find (m : UInt32)
  /-- In `find_and_connect_metas`, with the hosts that still need a client. -/
  | claim (m : UInt32) (wanted : List Slot)
  /-- In `send_auth_metas`. -/
  | greet (m : UInt32) (j : ℕ)
  /-- The loop over the known measurements. -/
  | advance (i : ℕ)
  /-- Before the test of a stage with an assignment pass. -/
  | check (a : Pass) (i : ℕ) (m : UInt32) (q : MsmParams)
  /-- In the assignment pass. -/
  | tell (a : Pass) (i : ℕ) (m : UInt32) (j : ℕ) (q : MsmParams)
  /-- Before the test of the stage that starts the measuring. -/
  | ready (i : ℕ) (m : UInt32) (q : MsmParams)
  /-- In the pass that starts the measuring. -/
  | start (i : ℕ) (m : UInt32) (j : ℕ) (numTold : ℕ) (q : MsmParams)
  /-- Before the test of the last stage. -/
  | done (i : ℕ) (m : UInt32)
  /-- Before `measurement_failed`, with where the loop goes after it. -/
  | failing (m : UInt32) (next : Point)
  /-- Where the descriptor sets have been built. -/
  | poll
  /-- The loop over the events. -/
  | events (f : FdSets) (fds : List Int)

/-- After the stage of a pass. -/
def Pass.next (i : ℕ) (m : UInt32) (q : MsmParams) : Pass → Point
  | .connect => .check .setBw i m q
  | .setBw => .ready i m q

/-- The set a descriptor is looked up in first. -/
def FdSets.phaseOf (f : FdSets) (fd : Int) : Option Phase :=
  if fd ∈ f.authing then some .auth
  else if fd ∈ f.connecting then some .connect
  else if fd ∈ f.settingBw then some .setBw
  else if fd ∈ f.measuring then some .measure
  else none

/-- The reply handler of a phase. -/
def Phase.handler : Phase → ℕ → LoopM Bool
  | .auth => authedSocket
  | .connect => connectedSocket
  | .setBw => didSetBwRate
  | .measure => fun c => do
    let x ← metaAt c
    let p ← assertFillParams x.currentMId
    outputResult p c

abbrev Config := Point × Loop

inductive Move : Config → Config → Prop
  | enter {s : Loop} (hfin : schedFinished s.co.msms = false)
      (h : ¬ s.co.loopsWithoutProgress > maxLoopsWithoutProgress) : Move (.head, s) (.scan 0, s)
  | overdue {s : Loop} (hfin : schedFinished s.co.msms = false)
      (h : s.co.loopsWithoutProgress > maxLoopsWithoutProgress) : Move (.head, s) (.giveUp, s)
  | drop {s : Loop} {m : UInt32} (h : s.co.known.getLast? = some m) :
      Move (.giveUp, s) (.failing m .giveUp, s)
  | dropped {s : Loop} (h : s.co.known.getLast? = none) :
      Move (.giveUp, s) (.scan 0, { s with co := { s.co with loopsWithoutProgress := 0 } })
  | fails {m : UInt32} {next : Point} {s t : Loop} (h : exec (do
        measurementFailed m
        countFailed) s = (.ok (), t)) : Move (.failing m next, s) (next, t)
  | late {i : ℕ} {m : UInt32} {p : MsmParams} {a : Answer} {now : Timeval} {s t u : Loop}
      (hi : s.co.known[i]? = some m) (hp : exec (assertFillParams m) s = (.ok p, t))
      (ha : exec answer t = (.ok a, u)) (hnow : a.time = some now)
      (h : now.tvSec.toUInt64 > p.failsafeStop) : Move (.scan i, s) (.failing m (.scan i), u)
  | inTime {i : ℕ} {m : UInt32} {p : MsmParams} {a : Answer} {now : Timeval} {s t u : Loop}
      (hi : s.co.known[i]? = some m) (hp : exec (assertFillParams m) s = (.ok p, t))
      (ha : exec answer t = (.ok a, u)) (hnow : a.time = some now)
      (h : ¬ now.tvSec.toUInt64 > p.failsafeStop) : Move (.scan i, s) (.scan (i + 1), u)
  | scanned {i : ℕ} {s : Loop} (hi : s.co.known[i]? = none) : Move (.scan i, s) (.pick, s)
  | idle {m : UInt32} {a : Answer} {s t u : Loop} (ha : exec answer s = (.ok a, t))
      (hm : exec (schedCall (schedNext a.rank a.now)) t = (.ok m, u)) (h : ¬ m > 0) :
      Move (.pick, s) (.advance 0, u)
  | picked {m : UInt32} {a : Answer} {s t u : Loop} (ha : exec answer s = (.ok a, t))
      (hm : exec (schedCall (schedNext a.rank a.now)) t = (.ok m, u)) (h : m > 0) :
      Move (.pick, s)
        (.find m, { u with co := { u.co with trace := u.co.trace ++ [.started m] } })
  | unfit {m : UInt32} {p : MsmParams} {s t : Loop}
      (h : exec (fillParams m) s = (.ok (false, p), t)) :
      Move (.find m, s) (.failing m (.advance 0), t)
  | fit {m : UInt32} {p : MsmParams} {s t : Loop}
      (h : exec (fillParams m) s = (.ok (true, p), t)) : Move (.find m, s) (.claim m p.slots, t)
  | unclaimed {m : UInt32} {slot : Slot} {rest : List Slot} {s t : Loop}
      (h : exec (nextAvailable slot.cls) s = (.ok none, t)) :
      Move (.claim m (slot :: rest), s) (.failing m (.advance 0), t)
  | claimed {m : UInt32} {slot : Slot} {rest : List Slot} {c : ℕ} {x : Meta} {s t : Loop}
      (h : exec (nextAvailable slot.cls) s = (.ok (some c), t)) (hx : t.co.metas[c]? = some x) :
      Move (.claim m (slot :: rest), s) (.claim m rest, { t with co := { t.co with
        metas := t.co.metas.set c { x with currentMId := m },
        trace := t.co.trace ++ [.claimed c m] } })
  | staffed {m : UInt32} {s : Loop} : Move (.claim m [], s)
      (.greet m 0, { s with co := { s.co with known := s.co.known ++ [m] } })
  | greeted {m : UInt32} {j : ℕ} {s t : Loop} (hj : j < s.co.metas.length)
      (h : exec (authTurn m j) s = (.ok (.next ()), t)) : Move (.greet m j, s) (.greet m (j + 1), t)
  | ungreeted {m : UInt32} {j : ℕ} {s t : Loop} (hj : j < s.co.metas.length)
      (h : exec (authTurn m j) s = (.ok (.leave ()), t)) :
      Move (.greet m j, s) (.failing m (.advance 0), t)
  | allGreeted {m : UInt32} {s : Loop} : Move (.greet m s.co.metas.length, s) (.advance 0, s)
  | turn {i : ℕ} {m : UInt32} {p : MsmParams} {s t : Loop} (hi : s.co.known[i]? = some m)
      (hp : exec (assertFillParams m) s = (.ok p, t)) :
      Move (.advance i, s) (.check .connect i m p, t)
  | advanced {i : ℕ} {s : Loop} (hi : s.co.known[i]? = none) : Move (.advance i, s) (.poll, s)
  | pass {a : Pass} {i : ℕ} {m : UInt32} {q : MsmParams} {s t : Loop}
      (h : exec (isTotally a.phase.before m) s = (.ok true, t)) :
      Move (.check a i m q, s) (.tell a i m 0 q, t)
  | noPass {a : Pass} {i : ℕ} {m : UInt32} {q : MsmParams} {s t : Loop}
      (h : exec (isTotally a.phase.before m) s = (.ok false, t)) :
      Move (.check a i m q, s) (a.next i m q, t)
  | told {a : Pass} {i : ℕ} {m : UInt32} {j : ℕ} {q q' : MsmParams} {s t : Loop}
      (hj : j < s.co.metas.length)
      (h : exec (assignTurn m a.phase.waits (a.tell q.fp) j q) s = (.ok (.next q'), t)) :
      Move (.tell a i m j q, s) (.tell a i m (j + 1) q', t)
  | untold {a : Pass} {i : ℕ} {m : UInt32} {j : ℕ} {q : MsmParams} {s t : Loop}
      (hj : j < s.co.metas.length)
      (h : exec (assignTurn m a.phase.waits (a.tell q.fp) j q) s = (.ok (.leave ()), t)) :
      Move (.tell a i m j q, s) (.failing m .head, t)
  | allTold {a : Pass} {i : ℕ} {m : UInt32} {q : MsmParams} {s : Loop}
      (h : ¬ ∃ slot ∈ q.slots, slot.assigned = false) :
      Move (.tell a i m s.co.metas.length q, s) (a.next i m q, s)
  | begin {i : ℕ} {m : UInt32} {q : MsmParams} {a : Answer} {s t u v : Loop}
      (h : exec (isTotallyBwSet m) s = (.ok true, t)) (ha : exec answer t = (.ok a, u))
      (hr : exec (schedCall fun s => (schedResetFailsafeStop a.now m s).map fun s => ((), s)) u =
        (.ok (), v)) : Move (.ready i m q, s) (.start i m 0 0 q, v)
  | noBegin {i : ℕ} {m : UInt32} {q : MsmParams} {s t : Loop}
      (h : exec (isTotallyBwSet m) s = (.ok false, t)) : Move (.ready i m q, s) (.done i m, t)
  | started {i : ℕ} {m : UInt32} {j n n' : ℕ} {q : MsmParams} {s t : Loop}
      (hj : j < s.co.metas.length) (h : exec (startTurn m q.dur j n) s = (.ok (.next n'), t)) :
      Move (.start i m j n q, s) (.start i m (j + 1) n' q, t)
  | unstarted {i : ℕ} {m : UInt32} {j n : ℕ} {q : MsmParams} {s t : Loop}
      (hj : j < s.co.metas.length) (h : exec (startTurn m q.dur j n) s = (.ok (.leave ()), t)) :
      Move (.start i m j n q, s) (.failing m .head, t)
  | allStarted {i : ℕ} {m : UInt32} {q : MsmParams} {s : Loop} :
      Move (.start i m s.co.metas.length q.slots.length q, s) (.done i m, s)
  | finished {i : ℕ} {m : UInt32} {s t : Loop} (h : exec (doneStage i m) s = (.ok true, t)) :
      Move (.done i m, s) (.advance i, t)
  | unfinished {i : ℕ} {m : UInt32} {s t : Loop} (h : exec (doneStage i m) s = (.ok false, t)) :
      Move (.done i m, s) (.advance (i + 1), t)
  | skip {s : Loop} (h : (fdSets s.co.metas).interesting = []) : Move (.poll, s) (.head, s)
  | timeout {r : Option (List Int)} {s t : Loop}
      (hr : exec (epollWait (fdSets s.co.metas).interesting) s = (.ok r, t))
      (h : r = none ∨ r = some []) : Move (.poll, s) (.head, { t with co :=
        { t.co with loopsWithoutProgress := t.co.loopsWithoutProgress + 1 } })
  | wake {fd : Int} {fds : List Int} {s t : Loop}
      (hr : exec (epollWait (fdSets s.co.metas).interesting) s = (.ok (some (fd :: fds)), t)) :
      Move (.poll, s) (.events (fdSets s.co.metas) (fd :: fds),
        { t with co := { t.co with loopsWithoutProgress := 0 } })
  | handled {f : FdSets} {fd : Int} {fds : List Int} {c : ℕ} {s t : Loop}
      (hc : s.co.metas.findIdx? (fun x => x.fd = fd) = some c)
      (h : exec (handleEvent f c) s = (.ok true, t)) :
      Move (.events f (fd :: fds), s) (.events f fds, t)
  | denied {f : FdSets} {fd : Int} {fds : List Int} {c : ℕ} {x y : Meta} {p : Phase} {s t : Loop}
      (hc : s.co.metas.findIdx? (fun x => x.fd = fd) = some c) (hx : s.co.metas[c]? = some x)
      (hp : f.phaseOf x.fd = some p) (h : exec (p.handler c) s = (.ok false, t))
      (hy : t.co.metas[c]? = some y) :
      Move (.events f (fd :: fds), s) (.failing y.currentMId .head, t)
  | drained {f : FdSets} {s : Loop} : Move (.events f [], s) (.head, s)

/-- Some moves, one after the other. -/
abbrev Walk : Config → Config → Prop := Relation.ReflTransGen Move

/-! What a relation allows that allows the client functions. -/

section
variable {R : Loop → Loop → Prop} (h : AllowsConnected R)
include h

theorem AllowsConnected.tell (a : Pass) (fp : Bytes) (slot : Slot) (c : ℕ) :
    Keeps R (a.tell fp slot c) := by
  cases a with
  | connect => exact h.command tcTellConnect_moves c
  | setBw => exact h.command tcSetBwRate_moves c

variable [IsPreorder Loop R]

/-- A move that handles no event and looks for no client. Only a few moves count turns. -/
theorem AllowsConnected.move {d d' : Config} (hm : Move d d')
    (hcount : d.1 = .giveUp ∨ d.1 = .poll → ∀ (s : Loop) (n : ℕ),
      R s { s with co := { s.co with loopsWithoutProgress := n } })
    (hd : ∀ f fd fds, d.1 ≠ .events f (fd :: fds))
    (hclaim : ∀ m slot rest, d.1 ≠ .claim m (slot :: rest)) : R d.2 d'.2 := by
  have htrans : ∀ {s t u : Loop}, R s t → R t u → R s u := trans_of R
  cases hm with
  | enter | overdue | drop | scanned | allGreeted | advanced | allTold | allStarted | skip |
    drained => exact refl_of R _
  | dropped => exact hcount (.inl rfl) _ _
  | staffed => exact h.books _ _ rfl rfl rfl (List.prefix_refl _)
  | fails hx => exact (h.failed _).of_exec hx
  | late _ hp ha | inTime _ hp ha =>
    exact htrans ((keeps_assertFillParams _).of_exec hp) (h.answers.of_exec ha)
  | idle ha hm => exact htrans (h.answers.of_exec ha) ((h.schedCall _).of_exec hm)
  | picked ha hm =>
    exact htrans (htrans (h.answers.of_exec ha) ((h.schedCall _).of_exec hm))
      (h.books _ _ rfl rfl rfl (List.prefix_append _ _))
  | unfit hp | fit hp => exact (keeps_fillParams _).of_exec hp
  | unclaimed | claimed => exact absurd rfl (hclaim _ _ _)
  | greeted _ hr | ungreeted _ hr => exact (h.authTurn _ _).of_exec hr
  | turn _ hp => exact (keeps_assertFillParams _).of_exec hp
  | pass hb | noPass hb | noBegin hb => exact (keeps_isTotally _ _).of_exec hb
  | told _ hr | untold _ hr => exact (AllowsConnected.assignTurn (h.tell _ _) _ _).of_exec hr
  | begin hb ha hr =>
    exact htrans (htrans ((keeps_isTotally _ _).of_exec hb) (h.answers.of_exec ha))
      ((h.schedCall _).of_exec hr)
  | started _ hr | unstarted _ hr => exact (h.startTurn _ _ _ _).of_exec hr
  | finished hb | unfinished hb => exact (h.doneStage _ _).of_exec hb
  | timeout hr | wake hr => exact htrans ((h.epollWait _).of_exec hr) (hcount (.inr rfl) _ _)
  | handled | denied => exact absurd rfl (hd _ _ _)

theorem AllowsConnected.handler (hout : ∀ q c, Keeps R (outputResult q c)) (p : Phase) (c : ℕ) :
    Keeps R (p.handler c) := by
  cases p with
  | auth => exact h.authedSocket c
  | connect => exact h.connectedSocket c
  | setBw => exact h.didSetBwRate c
  | measure =>
    refine keeps_bind (keeps_metaAt c) fun x => ?_
    exact keeps_bind (keeps_assertFillParams _) fun p => hout p c

/-- Any other move, if the results may be written too. -/
theorem AllowsConnected.anyMove (hout : ∀ q c, Keeps R (outputResult q c)) {d d' : Config}
    (hm : Move d d')
    (hcount : d.1 = .giveUp ∨ d.1 = .poll → ∀ (s : Loop) (n : ℕ),
      R s { s with co := { s.co with loopsWithoutProgress := n } })
    (hclaim : ∀ m slot rest, d.1 ≠ .claim m (slot :: rest)) : R d.2 d'.2 := by
  by_cases hd : ∀ f fd fds, d.1 ≠ .events f (fd :: fds)
  · exact h.move hm hcount hd hclaim
  cases hm with
  | handled _ hr => exact (h.handleEvent hout _ _).of_exec hr
  | denied _ _ _ hr => exact (h.handler hout _ _).of_exec hr
  | _ => exact absurd (by simp) hd

end

section
variable {R : Loop → Loop → Prop} [IsPreorder Loop R] {d d' : Config}

/-- A move that looks for a client. -/
theorem Allows.claims (h : Allows R) (hm : Move d d') {m : UInt32} {slot : Slot}
    {rest : List Slot} (hd : d.1 = .claim m (slot :: rest)) : R d.2 d'.2 := by
  have htrans : ∀ {s t u : Loop}, R s t → R t u → R s u := trans_of R
  cases hm with
  | unclaimed hr => exact (h.nextAvailable _).of_exec hr
  | claimed hr hx =>
    exact htrans (htrans ((h.nextAvailable _).of_exec hr) (h.claim _ _ hx))
      (h.books _ _ rfl rfl rfl (List.prefix_append _ _))
  | _ => cases hd

theorem Allows.move (h : Allows R) (hm : Move d d')
    (hcount : d.1 = .giveUp ∨ d.1 = .poll → ∀ (s : Loop) (n : ℕ),
      R s { s with co := { s.co with loopsWithoutProgress := n } })
    (hd : ∀ f fd fds, d.1 ≠ .events f (fd :: fds)) : R d.2 d'.2 := by
  by_cases hclaim : ∃ m slot rest, d.1 = .claim m (slot :: rest)
  · obtain ⟨m, slot, rest, hclaim⟩ := hclaim
    exact h.claims hm hclaim
  · exact h.toAllowsConnected.move hm hcount hd fun m slot rest hd => hclaim ⟨m, slot, rest, hd⟩

theorem Allows.anyMove (h : Allows R) (hout : ∀ q c, Keeps R (outputResult q c)) (hm : Move d d')
    (hcount : d.1 = .giveUp ∨ d.1 = .poll → ∀ (s : Loop) (n : ℕ),
      R s { s with co := { s.co with loopsWithoutProgress := n } }) : R d.2 d'.2 := by
  by_cases hclaim : ∃ m slot rest, d.1 = .claim m (slot :: rest)
  · obtain ⟨m, slot, rest, hclaim⟩ := hclaim
    exact h.claims hm hclaim
  · exact h.toAllowsConnected.anyMove hout hm hcount fun m slot rest hd =>
      hclaim ⟨m, slot, rest, hd⟩

end

/-! What no move changes. -/

/-- A change of other parts of the state. -/
theorem extends_of_eq {s t : Loop} (hmetas : t.co.metas = s.co.metas)
    (htrace : t.co.trace = s.co.trace) : s.Extends t :=
  ⟨congrArg (List.map Meta.who) hmetas, htrace ▸ List.prefix_refl _⟩

theorem Move.extends {c c' : Config} (h : Move c c') : c.2.Extends c'.2 :=
  extends_allows.anyMove keeps_outputResult h fun _ _ _ => extends_of_eq rfl rfl

theorem Walk.extends {c c' : Config} (h : Walk c c') : c.2.Extends c'.2 := by
  induction h with
  | refl => exact refl_of Loop.Extends c.2
  | tail _ hm ih => exact trans_of Loop.Extends ih hm.extends

/-! The turns of the loops over the clients. -/

/-- In a turn that ends with `r` client `j` works for the measurement, and the command has gone out
to it or has not. -/
def Commanded (m : UInt32) (j : ℕ) (p : Phase)
    (f : Option ℕ → Meta → Except Abort (Bool × Bytes × Meta)) {α : Type} (r : Turn α Unit)
    (s t : Loop) : Prop :=
  ∃ x, s.co.metas[j]? = some x ∧ x.currentMId = m ∧ match r with
    | .next _ => exec (command p f j) s = (.ok true, t)
    | .leave _ => exec (command p f j) s = (.ok false, t)

section
variable {s t : Loop} {m : UInt32} {j : ℕ} {x : Meta} {p : Phase}
  {f : Option ℕ → Meta → Except Abort (Bool × Bytes × Meta)}

/-- A command, and the assertion behind it. -/
theorem commanded_of_run {α : Type} {k : LoopM Unit} {a : α} {r : Turn α Unit} (hk : Keeps Eq k)
    (hx : s.co.metas[j]? = some x) (hcur : x.currentMId = m) (hr : exec (do
      if ¬ (← command p f j) then pure (Turn.leave ())
      else do
        k
        pure (Turn.next a)) s = (.ok r, t)) : Commanded m j p f r s t := by
  refine wp_returns (Q := fun r t => Commanded m j p f r s t) (E := fun _ _ => True) ?_ hr
  rw [wp_bind]
  apply wp_of_returns
  rintro (_ | _) u hu
  · exact ⟨x, hx, hcur, hu⟩
  · rw [if_neg (by simp), wp_bind]
    apply wp_of_returns
    intro _ v hv
    obtain rfl : u = v := hk.of_exec hv
    exact ⟨x, hx, hcur, hu⟩

theorem authTurn_ok {r : Turn Unit Unit} (hr : exec (authTurn m j) s = (.ok r, t)) :
    (r = .next () ∧ t = s) ∨ Commanded m j .auth tcAuthSocket r s t := by
  refine wp_returns (Q := fun r t =>
    (r = .next () ∧ t = s) ∨ Commanded m j .auth tcAuthSocket r s t) (E := fun _ _ => True) ?_ hr
  rw [authTurn, wp_bind, wp_metaAt]
  cases hx : s.co.metas[j]? with
  | none => trivial
  | some x =>
    refine wp_ite.mpr ⟨fun _ => .inl ⟨rfl, rfl⟩, fun hcur => ?_⟩
    rw [wp_bind]
    apply wp_of_returns
    intro _ u hu
    obtain rfl : s = u := (keeps_assertState (R := Eq) j _).of_exec hu
    apply wp_of_returns
    intro r v hv
    exact .inr (commanded_of_run (keeps_pure ()) hx (not_not.mp hcur) hv)

/-- In its turn of a pass a client of the measurement is told about the first free host of its
class, from the values of its slot, or no such host is free; the others are told nothing. -/
theorem assignTurn_ok {a : Pass} {st : CsmState} {fp : Bytes} {q : MsmParams}
    {r : Turn MsmParams Unit} (hr : exec (assignTurn m st (a.tell fp) j q) s = (.ok r, t)) :
    (r = .next q ∧ t = s ∧ ∀ x, s.co.metas[j]? = some x → x.currentMId = m →
      slots.firstFree q.slots x.cls = none) ∨
    ∃ slot, Commanded m j a.phase (a.message fp slot) r s t ∧ ∀ x, s.co.metas[j]? = some x →
      ∃ k, slots.firstFree q.slots x.cls = some k ∧ q.slots[k]? = some slot := by
  refine wp_returns (Q := fun r t => (r = .next q ∧ t = s ∧ ∀ x, s.co.metas[j]? = some x →
      x.currentMId = m → slots.firstFree q.slots x.cls = none) ∨
    ∃ slot, Commanded m j a.phase (a.message fp slot) r s t ∧ ∀ x, s.co.metas[j]? = some x →
      ∃ k, slots.firstFree q.slots x.cls = some k ∧ q.slots[k]? = some slot)
    (E := fun _ _ => True) ?_ hr
  rw [assignTurn, wp_bind, wp_metaAt]
  cases hx : s.co.metas[j]? with
  | none => trivial
  | some x =>
    simp only [Option.some.injEq, forall_eq']
    refine wp_ite.mpr ⟨fun hcur => ?_, fun hcur => .inl ⟨rfl, rfl, fun h => (hcur h).elim⟩⟩
    cases hk : slots.firstFree q.slots x.cls with
    | none => exact .inl ⟨rfl, rfl, fun _ => rfl⟩
    | some k =>
      simp only
      cases hslot : q.slots[k]? with
      | none => trivial
      | some slot =>
        apply wp_of_returns
        intro r u hu
        exact .inr ⟨slot, commanded_of_run (keeps_assertState j st) hx hcur hu, k, rfl, hslot⟩

theorem startTurn_ok {dur : UInt32} {n : ℕ} {r : Turn ℕ Unit}
    (hr : exec (startTurn m dur j n) s = (.ok r, t)) :
    (r = .next n ∧ t = s) ∨ Commanded m j .measure (tcStartMeasurement dur) r s t := by
  refine wp_returns (Q := fun r t => (r = .next n ∧ t = s) ∨
    Commanded m j .measure (tcStartMeasurement dur) r s t) (E := fun _ _ => True) ?_ hr
  rw [startTurn, wp_bind, wp_metaAt]
  cases hx : s.co.metas[j]? with
  | none => trivial
  | some x =>
    refine wp_ite.mpr ⟨fun hcur => ?_, fun _ => .inl ⟨rfl, rfl⟩⟩
    apply wp_of_returns
    intro r u hu
    exact .inr (commanded_of_run (keeps_assertState j _) hx hcur hu)

end

/-! Each part of a turn is a chain of moves, from its first point to the point after it. -/

section Runs
variable {c : Config} {s t : Loop} {m : UInt32} {i : ℕ} {α : Type}

theorem walk_failed {next : Point} (h : Walk c (.failing m next, s)) :
    wp (do
      measurementFailed m
      countFailed) (fun _ t => Walk c (next, t)) (fun _ _ => True) s :=
  wp_of_returns fun _ _ ht => h.tail (.fails ht)

theorem walk_failing {next : Point} (h : Walk c (.failing m next, s)) (a : α) :
    wp (do
      measurementFailed m
      countFailed
      pure a) (fun r t => r = a ∧ Walk c (next, t)) (fun _ _ => True) s := by
  have hfail := walk_failed h
  rw [wp_bind] at hfail ⊢
  apply wp_conseq hfail
  intro _ t ht
  rw [wp_bind]
  exact wp_conseq ht fun _ u hu => ⟨rfl, hu⟩

theorem length_of_extends (h : s.Extends t) : t.co.metas.length = s.co.metas.length := by
  simpa using congrArg List.length h.who

theorem walk_giveUp (hfin : schedFinished s.co.msms = false) :
    wp giveUp (fun _ t => Walk (.head, s) (.scan 0, t)) (fun _ _ => True) s := by
  rw [giveUp, wp_bind, wp_co, wp_ite]
  refine ⟨fun hover => ?_, fun hover => .single (.enter hfin hover)⟩
  rw [wp_bind]
  refine wp_conseq (Q := fun _ t => Walk (.head, s) (.giveUp, t) ∧ t.co.known.getLast? = none)
    (wp_whileFuel_invariant (fun _ t => Walk (.head, s) (.giveUp, t)) ?_ (fun _ => trivial)
      (.single (.overdue hfin hover))) ?_
  · rintro ⟨⟩ t ht
    rw [wp_bind, wp_co]
    cases hlast : t.co.known.getLast? with
    | none => exact ⟨ht, hlast⟩
    | some m =>
      apply wp_conseq (walk_failing (ht.tail (.drop hlast)) _)
      rintro _ u ⟨rfl, hu⟩
      exact hu
  · rintro _ t ⟨ht, hnone⟩
    exact ht.tail (.dropped hnone)

theorem walk_failsafeScan (h : Walk c (.scan 0, s)) :
    wp failsafeScan (fun _ t => Walk c (.pick, t)) (fun _ _ => True) s := by
  rw [failsafeScan, wp_bind, wp_co]
  refine wp_whileFuel_invariant (fun i t => Walk c (.scan i, t)) ?_ (fun _ => trivial) h
  intro i t ht
  rw [wp_bind, wp_co]
  cases hi : t.co.known[i]? with
  | none => exact ht.tail (.scanned hi)
  | some m =>
    rw [wp_bind]
    apply wp_of_returns
    intro p u hp
    rw [wp_bind]
    apply wp_of_returns
    intro a v ha
    cases hnow : a.time with
    | none => trivial
    | some now =>
      rw [wp_ite]
      refine ⟨fun hlate => ?_, fun hlate => ht.tail (.inTime hi hp ha hnow hlate)⟩
      apply wp_conseq (walk_failing (ht.tail (.late hi hp ha hnow hlate)) _)
      rintro _ u ⟨rfl, hu⟩
      exact hu

theorem walk_claimAll {wanted : List Slot} (h : Walk c (.claim m wanted, s)) :
    wp (claimAll m wanted) (fun ok t =>
      Walk c (if ok then .claim m [] else .failing m (.advance 0), t)) (fun _ _ => True) s := by
  induction wanted generalizing s with
  | nil => exact h
  | cons slot rest ih =>
    rw [claimAll, wp_bind]
    apply wp_of_returns
    rintro (_ | k) t ht
    · exact h.tail (.unclaimed ht)
    · rw [wp_bind, wp_metaAt]
      cases hx : t.co.metas[k]? with
      | none => trivial
      | some x =>
        simp only [wp_bind, wp_setMeta, wp_record]
        exact ih (h.tail (.claimed ht hx))

theorem walk_sendAuthMetas (h : Walk c (.greet m 0, s)) :
    wp (sendAuthMetas m)
      (fun ok t => Walk c (if ok then .advance 0 else .failing m (.advance 0), t))
      (fun _ _ => True) s := by
  simp only [sendAuthMetas, wp_bind, wp_numMetas]
  refine wp_conseq (wp_forRange (E := fun _ _ => True) (f := fun k _ => authTurn m k)
    (fun k (_ : Unit) t => Walk c (.greet m k, t) ∧ t.co.metas.length = s.co.metas.length)
    (fun (_ : Unit) t => Walk c (.failing m (.advance 0), t)) ?_ ⟨h, rfl⟩) ?_
  · rintro k hk ⟨⟩ t ⟨ht, hlen⟩
    apply wp_of_returns
    rintro (⟨⟩ | ⟨⟩) u hu
    · have hext : t.Extends u := (extends_allows.authTurn m k).of_exec hu
      exact ⟨ht.tail (.greeted (hlen ▸ hk) hu), (length_of_extends hext).trans hlen⟩
    · exact ht.tail (.ungreeted (hlen ▸ hk) hu)
  · rintro (⟨⟩ | ⟨⟩) t ht
    · obtain ⟨ht, hlen⟩ := ht
      rw [← hlen] at ht
      exact ht.tail .allGreeted
    · exact ht

theorem walk_startNew (h : Walk c (.pick, s)) :
    wp startNew (fun _ t => Walk c (.advance 0, t)) (fun _ _ => True) s := by
  rw [startNew, wp_bind]
  apply wp_of_returns
  intro a t ha
  rw [wp_bind]
  apply wp_of_returns
  intro m u hm
  rw [wp_ite]
  refine ⟨fun hpos => ?_, fun hpos => h.tail (.idle ha hm hpos)⟩
  rw [wp_bind, wp_record, wp_bind]
  -- `find_and_connect_metas`
  have hfind : wp (findAndConnectMetas m) (fun ok t =>
      Walk c (if ok then .claim m [] else .failing m (.advance 0), t)) (fun _ _ => True)
      { u with co := { u.co with trace := u.co.trace ++ [.started m] } } := by
    have h₁ := h.tail (.picked ha hm hpos)
    rw [findAndConnectMetas, wp_bind]
    apply wp_of_returns
    rintro ⟨_ | _, p⟩ v hp
    · exact h₁.tail (.unfit hp)
    · exact walk_claimAll (h₁.tail (.fit hp))
  apply wp_conseq hfind
  rintro (_ | _) v hv
  · exact wp_conseq (walk_failed hv) fun _ w hw => hw
  · simp only [not_true_eq_false, ↓reduceIte, wp_bind, wp_modifyCo] at hv ⊢
    apply wp_conseq (walk_sendAuthMetas (hv.tail .staffed))
    rintro (_ | _) w hw
    · exact wp_conseq (walk_failed hw) fun _ w hw => hw
    · exact hw

/-- The fingerprint stays during a pass. -/
theorem assignTurn_fp {st : CsmState} {tell : Slot → ℕ → LoopM Bool} {j : ℕ} {q : MsmParams} :
    wp (assignTurn m st tell j q) (Turn.Post (fun q' _ => q'.fp = q.fp) (fun _ _ => True))
      (fun _ _ => True) s := by
  rw [assignTurn, wp_bind, wp_metaAt]
  cases s.co.metas[j]? with
  | none => trivial
  | some x =>
    simp only [wp_ite]
    refine ⟨fun _ => ?_, fun _ => rfl⟩
    cases slots.firstFree q.slots x.cls with
    | none => rfl
    | some k =>
      simp only
      cases q.slots[k]? with
      | none => trivial
      | some slot =>
        rw [wp_bind]
        apply wp_of_returns
        intro ok t _
        rw [wp_ite]
        refine ⟨fun _ => trivial, fun _ => ?_⟩
        rw [wp_bind]
        exact wp_of_returns fun _ _ _ => rfl

theorem walk_passStage {a : Pass} {q : MsmParams} (h : Walk c (.check a i m q, s)) :
    wp (do
      if ← isTotally a.phase.before m then passOrFail m a.phase.waits (a.tell q.fp) q
      else pure (some q)) (fun r t => Walk c (r.elim .head fun q' => a.next i m q', t))
      (fun _ _ => True) s := by
  rw [wp_bind]
  apply wp_of_returns
  rintro (_ | _) t ht
  · exact h.tail (.noPass ht)
  have h₁ := h.tail (.pass ht)
  simp only [↓reduceIte, passOrFail, assignPass, wp_bind, wp_numMetas]
  refine wp_conseq (wp_forRange (E := fun _ _ => True)
    (fun j q' u => Walk c (.tell a i m j q', u) ∧ q'.fp = q.fp ∧
      u.co.metas.length = t.co.metas.length)
    (fun (_ : Unit) u => Walk c (.failing m .head, u)) ?_ ⟨h₁, rfl, rfl⟩) ?_
  · rintro j hj q' u ⟨hu, hfp, hlen⟩
    rw [← hlen] at hj
    have hext : Keeps Loop.Extends (assignTurn m a.phase.waits (a.tell q.fp) j q') :=
      AllowsConnected.assignTurn (extends_allows.tell a q.fp) j q'
    apply wp_of_returns
    rintro (q'' | ⟨⟩) v hv
    · have hlen' := length_of_extends (hext.of_exec hv)
      have hfp' : q''.fp = q'.fp := wp_returns (assignTurn_fp (s := u)) hv
      rw [← hfp] at hv
      exact ⟨hu.tail (.told hj hv), hfp'.trans hfp, hlen'.trans hlen⟩
    · rw [← hfp] at hv
      exact hu.tail (.untold hj hv)
  · rintro (q' | ⟨⟩) u hu
    · obtain ⟨hu, -, hlen⟩ := hu
      rw [← hlen] at hu
      by_cases hall : ∃ slot ∈ q'.slots, slot.assigned = false
      · simp only [wp_bind, failIf, if_pos hall, fromExcept_error, wp_abort]
      · simp only [wp_bind, failIf, if_neg hall, fromExcept_ok, wp_pure]
        exact hu.tail (.allTold hall)
    · apply wp_conseq (walk_failing hu none)
      rintro _ v ⟨rfl, hv⟩
      exact hv

theorem walk_connectStage {p : MsmParams} (h : Walk c (.check .connect i m p, s)) :
    wp (connectStage m p) (fun r t => Walk c (r.elim .head fun q => .check .setBw i m q, t))
      (fun _ _ => True) s :=
  walk_passStage (a := .connect) h

theorem walk_setBwStage {p : MsmParams} (h : Walk c (.check .setBw i m p, s)) :
    wp (setBwStage m p) (fun r t => Walk c (r.elim .head fun q => .ready i m q, t))
      (fun _ _ => True) s :=
  walk_passStage (a := .setBw) h

theorem walk_startStage {q : MsmParams} (h : Walk c (.ready i m q, s)) :
    wp (startStage m q) (fun ok t => Walk c (if ok then .done i m else .head, t))
      (fun _ _ => True) s := by
  rw [startStage, wp_bind]
  apply wp_of_returns
  rintro (_ | _) t ht
  · exact h.tail (.noBegin ht)
  rw [if_pos rfl, wp_bind]
  apply wp_of_returns
  intro a u ha
  rw [wp_bind]
  apply wp_of_returns
  intro _ v hr
  have h₁ := h.tail (.begin ht ha hr)
  rw [wp_bind, wp_numMetas, wp_bind]
  refine wp_conseq (wp_forRange (E := fun _ _ => True) (f := startTurn m q.dur)
    (fun j n w => Walk c (.start i m j n q, w) ∧ w.co.metas.length = v.co.metas.length)
    (fun (_ : Unit) w => Walk c (.failing m .head, w)) ?_ ⟨h₁, rfl⟩) ?_
  · rintro j hj n w ⟨hw, hlen⟩
    rw [← hlen] at hj
    apply wp_of_returns
    rintro (n' | ⟨⟩) z hz
    · have hext : w.Extends z := (extends_allows.startTurn m q.dur j n).of_exec hz
      exact ⟨hw.tail (.started hj hz), (length_of_extends hext).trans hlen⟩
    · exact hw.tail (.unstarted hj hz)
  · rintro (n | ⟨⟩) w hw
    · obtain ⟨hw, hlen⟩ := hw
      rw [← hlen] at hw
      by_cases hn : n ≠ q.slots.length
      · simp only [wp_bind, failIf, if_pos hn, fromExcept_error, wp_abort]
      · simp only [wp_bind, failIf, if_neg hn, fromExcept_ok, wp_pure]
        rw [not_not.mp hn] at hw
        exact hw.tail .allStarted
    · apply wp_conseq (walk_failing hw false)
      rintro _ z ⟨rfl, hz⟩
      exact hz

theorem walk_advanceTurn (h : Walk c (.advance i, s)) :
    wp (advanceTurn i) (Turn.Post (fun i' t => Walk c (.advance i', t))
      (fun ok t => Walk c (if ok then .poll else .head, t))) (fun _ _ => True) s := by
  simp only [advanceTurn, wp_bind, wp_co]
  cases hi : s.co.known[i]? with
  | none => exact h.tail (.advanced hi)
  | some m =>
    rw [wp_bind]
    apply wp_of_returns
    intro p t hp
    rw [wp_bind]
    apply wp_conseq (walk_connectStage (h.tail (.turn hi hp)))
    rintro (_ | q) u hu
    · exact hu
    simp only [wp_bind]
    apply wp_conseq (walk_setBwStage hu)
    rintro (_ | q') v hv
    · exact hv
    simp only [wp_bind]
    apply wp_conseq (walk_startStage hv)
    rintro (_ | _) w hw
    · exact hw
    simp only [not_true_eq_false, ↓reduceIte, wp_bind] at hw ⊢
    apply wp_of_returns
    rintro (_ | _) z hz
    · exact hw.tail (.unfinished hz)
    · exact hw.tail (.finished hz)

theorem walk_advance (h : Walk c (.advance 0, s)) :
    wp advance (fun ok t => Walk c (if ok then .poll else .head, t)) (fun _ _ => True) s := by
  rw [advance, wp_bind, wp_co]
  exact wp_whileFuel_invariant (fun i t => Walk c (.advance i, t))
    (fun _ _ ht => walk_advanceTurn ht) (fun _ => trivial) h

/-- What holds after a reply handler and the assertion behind it, or the measurement's failure. -/
theorem wp_onReply_of {st : CsmState} {handler : ℕ → LoopM Bool} {k : ℕ} {Q : Bool → Loop → Prop}
    (hyes : ∀ t, exec (handler k) s = (.ok true, t) → Q true t)
    (hno : ∀ t, exec (handler k) s = (.ok false, t) → wp (do
      let y ← metaAt k
      measurementFailed y.currentMId
      countFailed
      pure false) Q (fun _ _ => True) t) : wp (onReply st handler k) Q (fun _ _ => True) s := by
  rw [onReply, wp_bind]
  apply wp_of_returns
  rintro (_ | _) t ht
  · exact hno t ht
  · rw [if_neg (by simp), wp_bind]
    apply wp_of_returns
    intro _ u hu
    have hsame : t = u := (keeps_assertState (R := Eq) k st).of_exec hu
    exact hsame ▸ hyes t ht

/-- An event is handled by the handler of the first set with the descriptor. -/
theorem wp_handleEvent_of {f : FdSets} {k : ℕ} {x : Meta} {p : Phase} {Q : Bool → Loop → Prop}
    (hx : s.co.metas[k]? = some x) (hp : f.phaseOf x.fd = some p)
    (hyes : ∀ t, exec (p.handler k) s = (.ok true, t) → Q true t)
    (hno : ∀ t, exec (p.handler k) s = (.ok false, t) → wp (do
      let y ← metaAt k
      measurementFailed y.currentMId
      countFailed
      pure false) Q (fun _ _ => True) t) : wp (handleEvent f k) Q (fun _ _ => True) s := by
  rw [handleEvent, wp_bind, wp_metaAt, hx]
  simp only
  unfold FdSets.phaseOf at hp
  by_cases h₁ : x.fd ∈ f.authing
  · rw [if_pos h₁] at hp ⊢
    obtain rfl := Option.some.inj hp
    exact wp_onReply_of hyes hno
  by_cases h₂ : x.fd ∈ f.connecting
  · rw [if_neg h₁, if_pos h₂] at hp ⊢
    obtain rfl := Option.some.inj hp
    exact wp_onReply_of hyes hno
  by_cases h₃ : x.fd ∈ f.settingBw
  · rw [if_neg h₁, if_neg h₂, if_pos h₃] at hp ⊢
    obtain rfl := Option.some.inj hp
    exact wp_onReply_of hyes hno
  rw [if_neg h₁, if_neg h₂, if_neg h₃] at hp ⊢
  by_cases h₄ : x.fd ∈ f.measuring
  · rw [if_pos h₄] at hp ⊢
    obtain rfl := Option.some.inj hp
    rw [wp_bind]
    apply wp_of_returns
    intro q t hq
    rw [wp_bind]
    apply wp_of_returns
    intro ok u hu
    have hrun : exec (Phase.measure.handler k) s = (.ok ok, u) := by
      have hmeta : exec (metaAt k) s = (.ok x, s) := by
        apply exec_of_wp
        rw [wp_metaAt, hx]
        exact ⟨rfl, rfl⟩
      rw [Phase.handler, exec_bind, hmeta]
      simp only
      rw [exec_bind, hq]
      exact hu
    cases ok with
    | false => exact hno u hrun
    | true => exact hyes u hrun
  · rw [if_neg h₄] at hp
    cases hp

/-- A descriptor that is in none of the sets is noted, and the loop goes on. -/
theorem wp_handleEvent_stray {f : FdSets} {k : ℕ} {x : Meta} {Q : Bool → Loop → Prop}
    {E : Abort → Loop → Prop} (hx : s.co.metas[k]? = some x) (hp : f.phaseOf x.fd = none)
    (h : Q true { s with co := { s.co with strays := s.co.strays ++ [x.fd] } }) :
    wp (handleEvent f k) Q E s := by
  rw [handleEvent, wp_bind, wp_metaAt, hx]
  simp only
  unfold FdSets.phaseOf at hp
  split_ifs at hp with h₁ h₂ h₃ h₄
  rw [if_neg h₁, if_neg h₂, if_neg h₃, if_neg h₄]
  exact h

/-- After a failure the event is not reported as handled. -/
theorem wp_failed_event {k : ℕ} {Q : Loop → Prop} : wp (do
    let y ← metaAt k
    measurementFailed y.currentMId
    countFailed
    pure false) (fun ok t => ok = true → Q t) (fun _ _ => True) s := by
  rw [wp_bind]
  refine wp_of_returns fun y t _ => ?_
  rw [wp_bind]
  apply wp_of_returns
  intro _ u _
  rw [wp_bind, wp_countFailed, wp_pure]
  exact fun hok => absurd hok Bool.false_ne_true

/-- An event that has been handled is one whose handler has succeeded, and no more has happened. -/
theorem handled_handler {f : FdSets} {k : ℕ} {x : Meta} {p : Phase} {t : Loop}
    (hx : s.co.metas[k]? = some x) (hp : f.phaseOf x.fd = some p)
    (hr : exec (handleEvent f k) s = (.ok true, t)) : exec (p.handler k) s = (.ok true, t) := by
  refine wp_returns (Q := fun ok t => ok = true → exec (p.handler k) s = (.ok true, t))
    (E := fun _ _ => True) ?_ hr rfl
  exact wp_handleEvent_of hx hp (fun t ht _ => ht) fun _ _ => wp_failed_event

/-- The handler of client `k` has failed, and then its measurement. -/
def Denied (f : FdSets) (k : ℕ) (x : Meta) (s t : Loop) : Prop :=
  ∃ p u y, f.phaseOf x.fd = some p ∧ exec (p.handler k) s = (.ok false, u) ∧
    u.co.metas[k]? = some y ∧ exec (do
      measurementFailed y.currentMId
      countFailed) u = (.ok (), t)

theorem denied_of_failed {f : FdSets} {k : ℕ} {x : Meta} {p : Phase} {u : Loop}
    (hp : f.phaseOf x.fd = some p) (hu : exec (p.handler k) s = (.ok false, u)) :
    wp (do
      let y ← metaAt k
      measurementFailed y.currentMId
      countFailed
      pure false) (fun ok t => ok = false → Denied f k x s t) (fun _ _ => True) u := by
  rw [wp_bind, wp_metaAt]
  cases hy : u.co.metas[k]? with
  | none => trivial
  | some y =>
    have hrun : wp (do
        measurementFailed y.currentMId
        countFailed) (fun _ t => Denied f k x s t) (fun _ _ => True) u :=
      wp_of_returns fun _ _ ht => ⟨p, u, y, hp, hu, hy, ht⟩
    simp only
    rw [wp_bind] at hrun ⊢
    apply wp_conseq hrun
    intro _ v hv
    rw [wp_bind]
    exact wp_conseq hv fun _ w hw _ => hw

/-- A failed event is one whose handler has failed: that of the first set with the descriptor. -/
theorem denied_of_handleEvent {f : FdSets} {k : ℕ} {x : Meta} (hx : s.co.metas[k]? = some x) :
    wp (handleEvent f k) (fun ok t => ok = false → Denied f k x s t) (fun _ _ => True) s := by
  cases hp : f.phaseOf x.fd with
  | none => exact wp_handleEvent_stray hx hp fun hok => absurd hok (by decide)
  | some p =>
    refine wp_handleEvent_of hx hp (fun t ht hok => absurd hok (by decide)) fun t ht => ?_
    exact denied_of_failed hp ht

theorem walk_handleEvents {f : FdSets} {fds : List Int} (h : Walk c (.events f fds, s)) :
    wp (handleEvents f fds) (fun ok t => ok = true → Walk c (.head, t)) (fun _ _ => True) s := by
  induction fds generalizing s with
  | nil => exact fun _ => h.tail .drained
  | cons fd rest ih =>
    rw [handleEvents, wp_bind, wp_co]
    cases hk : s.co.metas.findIdx? (fun x => x.fd = fd) with
    | none => exact fun hok => absurd hok (by decide)
    | some k =>
      obtain ⟨hlt, -⟩ := List.findIdx?_eq_some_iff_getElem.mp hk
      have hx := List.getElem?_eq_getElem hlt
      simp only
      rw [wp_bind]
      apply wp_of_returns
      rintro (_ | _) t ht
      · intro _
        obtain ⟨p, u, y, hp, hu, hy, hfail⟩ := wp_returns (denied_of_handleEvent hx) ht rfl
        exact (h.tail (.denied hk hx hp hu hy)).tail (.fails hfail)
      · exact ih (h.tail (.handled hk ht))

theorem walk_pollStage (h : Walk c (.poll, s)) :
    wp pollStage (fun ok t => ok = true → Walk c (.head, t)) (fun _ _ => True) s := by
  rw [pollStage, wp_bind, wp_co, wp_ite]
  refine ⟨fun hnone _ => h.tail (.skip hnone), fun _ => ?_⟩
  rw [wp_bind]
  apply wp_of_returns
  rintro (_ | _ | ⟨fd, fds⟩) t hr
  · exact fun _ => h.tail (.timeout hr (.inl rfl))
  · exact fun _ => h.tail (.timeout hr (.inr rfl))
  · exact walk_handleEvents (h.tail (.wake hr))

/-- A turn up to the loop over the known measurements. -/
def turnToAdvance : LoopM Unit := do
  giveUp
  failsafeScan
  startNew

/-- A turn up to the descriptor sets; `false` is `goto main_loop_end`. -/
def turnToPoll : LoopM Bool := do
  turnToAdvance
  advance

theorem walk_turnToAdvance (hfin : schedFinished s.co.msms = false) :
    wp turnToAdvance (fun _ t => Walk (.head, s) (.advance 0, t)) (fun _ _ => True) s := by
  rw [turnToAdvance, wp_bind]
  apply wp_conseq (walk_giveUp hfin)
  intro _ _ h₁
  rw [wp_bind]
  exact wp_conseq (walk_failsafeScan h₁) fun _ _ h₂ => walk_startNew h₂

theorem walk_turnToPoll (hfin : schedFinished s.co.msms = false) :
    wp turnToPoll (fun ok t => Walk (.head, s) (if ok then .poll else .head, t))
      (fun _ _ => True) s := by
  rw [turnToPoll, wp_bind]
  exact wp_conseq (walk_turnToAdvance hfin) fun _ _ h => walk_advance h

/-- A turn of the main loop that comes back to its head is a chain of moves. -/
theorem walk_of_turn (h : LoopStep s t) : Walk (.head, s) (.head, t) := by
  have hturn : wp mainLoopTurn (fun ok t => ok = true → Walk (.head, s) (.head, t))
      (fun _ _ => True) s := by
    rw [mainLoopTurn, wp_bind]
    apply wp_conseq (walk_giveUp h.1)
    intro _ _ h₁
    rw [wp_bind]
    apply wp_conseq (walk_failsafeScan h₁)
    intro _ _ h₂
    rw [wp_bind]
    apply wp_conseq (walk_startNew h₂)
    intro _ _ h₃
    rw [wp_bind]
    apply wp_conseq (walk_advance h₃)
    rintro (_ | _) u hu
    · exact fun _ => hu
    · exact walk_pollStage hu
  exact wp_returns hturn h.2 rfl

end Runs

/-- The configurations of all runs of the program, also in turns that end early. -/
def Reach (r : Round) (c : Config) : Prop := ∃ s, AtHead r s ∧ Walk (.head, s) c

theorem AtHead.reach {r : Round} {s : Loop} (h : AtHead r s) : Reach r (.head, s) := ⟨s, h, .refl⟩

/-- The points that a turn comes to, also if it ends early after them. -/
theorem AtHead.reach_advance {r : Round} {s t : Loop} (h : AtHead r s)
    (hfin : schedFinished s.co.msms = false) (hx : exec turnToAdvance s = (.ok (), t)) :
    Reach r (.advance 0, t) := ⟨s, h, wp_returns (walk_turnToAdvance hfin) hx⟩

theorem AtHead.reach_poll {r : Round} {s t : Loop} (h : AtHead r s)
    (hfin : schedFinished s.co.msms = false) (hx : exec turnToPoll s = (.ok true, t)) :
    Reach r (.poll, t) := ⟨s, h, wp_returns (walk_turnToPoll hfin) hx⟩

theorem Reach.walk {r : Round} {c c' : Config} (h : Reach r c) (hc : Walk c c') : Reach r c' := by
  obtain ⟨s, hs, h⟩ := h
  exact ⟨s, hs, h.trans hc⟩

/-- A round goes on from its start, move by move. -/
theorem Reach.from_start {r : Round} {c : Config} (h : Reach r c) :
    ∃ s₀, r.start = .ok (some s₀) ∧ AtHead r s₀ ∧ Walk (.head, s₀) c := by
  obtain ⟨s, hs, hw⟩ := h
  induction hs with
  | first hbase hs => exact ⟨_, hs, .first hbase hs, hw⟩
  | again h hexit hbase hs => exact ⟨_, hs, .again h hexit hbase hs, hw⟩
  | turn _ hs ih => exact ih ((walk_of_turn hs).trans hw)

/-- What holds at the start of a round and is kept by the moves of its runs holds in all of them. -/
theorem Reach.induction_moves {r : Round} {c : Config} {I : Config → Prop} (h : Reach r c)
    (hstart : ∀ {s}, r.start = .ok (some s) → AtHead r s → I (.head, s))
    (hmove : ∀ {d d'}, Reach r d → Move d d' → I d → I d') : I c := by
  obtain ⟨s₀, hs, hhead, hw⟩ := h.from_start
  clear h
  induction hw with
  | refl => exact hstart hs hhead
  | tail hd hm ih => exact hmove ⟨s₀, hhead, hd⟩ hm ih

end Flashflow
