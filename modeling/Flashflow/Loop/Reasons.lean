import Flashflow.Library.Origins
import Flashflow.Loop.Allocate
import Flashflow.Loop.Footprint
import Flashflow.Torclient.Commands
import Flashflow.Torclient.Segments

/-! Nothing happens in a round without a reason. Each entry of the history was due when it was
written, and the outside has answered what it takes. -/
namespace Flashflow
open Sched Program Arrays Outcome Allocation

/-! What the outside has answered. -/

/-- What `recv` has filled into the buffer. -/
def Answer.got (a : Answer) : Option Bytes := a.recv.map (·.take readBufLen)

/-- The buffer begins with the text; behind what was received it is not initialised. -/
def Answer.Begins (a : Answer) (text : Bytes) : Prop :=
  ∃ got, a.got = some got ∧ (List.range text.length).map (fun i => got.getD i (a.stale i)) = text

/-- The client has closed the connection, or it says that it is done. -/
def Answer.EndsResults (a : Answer) : Prop :=
  a.time.isSome ∧ ∃ got, a.got = some got ∧ (got = [] ∨ doneResp <:+: cstr got)

/-- The client may go on to the next phase. -/
def Phase.Accepts (a : Answer) : Phase → Prop
  | .auth | .setBw => a.Begins (bytes "250 OK")
  | .connect => a.Begins (bytes "250 SPEEDTESTING")
  | .measure => a.EndsResults

/-- The measurement cannot go on. -/
def Phase.Rejects (a : Answer) : Phase → Prop
  | .measure => a.time = none ∨ a.recv = none
  | p => ¬ p.Accepts a

/-- `snprintf` fails: only a password or a name can be that long. -/
def Phase.TooLong (fp : Bytes) (x : Meta) : Phase → Prop
  | .auth => intMax < (Command.authSocket.whole x).length
  | .connect => ∃ conns, intMax < ((Command.tellConnect fp conns).whole x).length
  | .setBw | .measure => False

/-- The next answer. -/
def Loop.next (s : Loop) : Answer := s.os.script s.os.tick

/-- The `i`-th connection attempt from now on succeeds. -/
def Loop.Connects (s : Loop) (i : ℕ) : Prop := (s.os.script (s.os.tick + i)).accepts = true

/-- `m` still needs a client of the class. -/
def Loop.Needs (s : Loop) (m : UInt32) (cls : Bytes) : Prop :=
  ∃ e, s.co.msms.get? m = some e ∧ (classesOf s.co.metas m).count cls < e.classes.count cls

/-- None of the clients that are waited for has anything to say. -/
def Loop.InVain (s : Loop) : Prop :=
  ∀ fds, s.next.ready = some fds → ∀ fd ∈ fds, fd ∉ (fdSets s.co.metas).interesting

/-- In the round the last `n` waits have been in vain. -/
inductive Stalled (r : Round) : ℕ → Config → Prop
  | fresh {d : Config} (h : Reach r d) : Stalled r 0 d
  | wait {n : ℕ} {w : Option (List Int)} {s t : Loop} (h : Stalled r n (.poll, s))
      (hw : exec (epollWait (fdSets s.co.metas).interesting) s = (.ok w, t)) (hvain : s.InVain) :
      Stalled r (n + 1) (.head, { t with co :=
        { t.co with loopsWithoutProgress := t.co.loopsWithoutProgress + 1 } })
  | go {n : ℕ} {d d' : Config} (h : Stalled r n d) (hm : Move d d')
      (hno : ∀ f fds, d'.1 ≠ .events f fds) : Stalled r n d'

/-- Why `m` is given up. -/
inductive FailsFor (r : Round) (s : Loop) (m : UInt32) : Prop
  /-- Too many waits have been in vain. -/
  | stalled {n : ℕ} {p : Point} (hm : m ∈ s.co.known) (h : Stalled r n (p, s))
      (hn : maxLoopsWithoutProgress < n)
  | late {e : Measurement} {now : Timeval} (hm : m ∈ s.co.known)
      (he : s.co.msms.get? m = some e) (hnow : s.next.time = some now)
      (h : e.failsafeStop < now.tvSec.toUInt64)
  | unfit {e : Measurement} (he : s.co.msms.get? m = some e) (h : e.dur = 0 ∨ e.hosts = [])
  /-- No idle client of a class accepts. -/
  | short {cls : Bytes} (hneed : s.Needs m cls)
      (h : ∀ i < (idleClients s.co.metas cls).length, ¬ s.Connects i)
  | unsent {e : Measurement} {c : ℕ} {x : Meta} {p : Phase} (he : s.co.msms.get? m = some e)
      (hx : s.co.metas[c]? = some x) (hcur : x.currentMId = m) (hst : x.state = p.before)
      (h : s.next.sent = none ∨ p.TooLong (utf8 e.fp) x)
  | rejected {c : ℕ} {x : Meta} {p : Phase} (hx : s.co.metas[c]? = some x)
      (hcur : x.currentMId = m) (hst : x.state = p.waits) (h : p.Rejects s.next)

/-- Why there is an entry in the history. -/
inductive Reason (r : Round) (s : Loop) : Event → Prop
  | started {m : UInt32} {e : Measurement} (he : s.co.msms.get? m = some e)
      (h : e.ready = true) : Reason r s (.started m)
  /-- The first idle client of a class that accepts. -/
  | claimed {c i : ℕ} {m : UInt32} {cls : Bytes} (hneed : s.Needs m cls)
      (hc : (idleClients s.co.metas cls)[i]? = some c) (h : s.Connects i)
      (hfirst : ∀ j < i, ¬ s.Connects j) : Reason r s (.claimed c m)
  /-- All clients of the measurement are due for the command or have just got it. -/
  | sent {c : ℕ} {x : Meta} {p : Phase} (hx : s.co.metas[c]? = some x) (hst : x.state = p.before)
      (hall : ∀ y ∈ s.co.metas, y.currentMId = x.currentMId → y.state = p.before ∨
        y.state = p.waits) (h : s.next.sent.isSome) : Reason r s (.sent c x.currentMId p)
  | confirmed {c : ℕ} {x : Meta} {p : Phase} (hx : s.co.metas[c]? = some x)
      (hst : x.state = p.waits) (h : p.Accepts s.next) : Reason r s (.confirmed c x.currentMId p)
  | failed {m : UInt32} (h : FailsFor r s m) : Reason r s (.failed m)
  /-- There is a client for each host, and all of them are done. -/
  | succeeded {m : UInt32} {e : Measurement} (he : s.co.msms.get? m = some e)
      (hcls : (classesOf s.co.metas m).Perm e.classes)
      (h : ∀ x ∈ s.co.metas, x.currentMId = m → x.state = .done) : Reason r s (.succeeded m)

/-! The functions on one client. -/

section Client
variable {a : Answer} {x y : Meta} {ok : Bool} {msg : Bytes} {sent : Option ℕ} {p : Phase}

/-- The return value of a function that sends the command of the phase. -/
def Reports (p : Phase) (fp : Bytes)
    (f : Option ℕ → Meta → Except Abort (Bool × Bytes × Meta)) : Prop :=
  ∀ sent x ok msg y, f sent x = .ok (ok, msg, y) →
    if ok then sent.isSome = true else sent = none ∨ p.TooLong fp x

theorem sendCommand_reports {size : ℕ} {text : Bytes} {waits : CsmState}
    (h : sendCommand size text waits sent x = .ok (ok, msg, y)) :
    if ok then sent.isSome = true else sent = none ∨ intMax < text.length := by
  unfold sendCommand at h
  split at h
  next hlong =>
    obtain ⟨rfl, -⟩ := Prod.mk.inj (Except.ok.inj h)
    exact .inr hlong
  · cases sent with
    | none =>
      obtain ⟨rfl, -⟩ := Prod.mk.inj (Except.ok.inj h)
      exact .inl rfl
    | some n =>
      obtain ⟨z, -, h⟩ := bind_eq_ok.mp h
      obtain ⟨rfl, -⟩ := Prod.mk.inj (pure_eq_ok.mp h)
      rfl

theorem reports_auth (fp : Bytes) : Reports .auth fp tcAuthSocket := by
  intro sent x ok msg y h
  obtain ⟨-, -, h⟩ := bind_eq_ok.mp h
  exact sendCommand_reports h

theorem reports_connect (fp : Bytes) (conns : UInt32) :
    Reports .connect fp (tcTellConnect fp conns) := by
  intro sent x ok msg y h
  simp only [tcTellConnect, bind_eq_ok] at h
  obtain ⟨-, -, -, -, h⟩ := h
  have hsent := sendCommand_reports h
  cases ok with
  | true => exact hsent
  | false => exact hsent.imp_right fun hlong => ⟨conns, hlong⟩

theorem reports_setBw (fp : Bytes) (bw : UInt32) : Reports .setBw fp (tcSetBwRate bw) := by
  intro sent x ok msg y h
  simp only [tcSetBwRate, bind_eq_ok] at h
  obtain ⟨-, -, h⟩ := h
  have hsent := sendCommand_reports h
  cases ok with
  | true => exact hsent
  | false =>
    refine hsent.imp_right fun hlong => ?_
    have hshort := length_whole_setBwRate x bw
    exact absurd hlong (by simp only [Command.whole, intMax] at hshort ⊢; omega)

theorem reports_measure (fp : Bytes) (dur : UInt32) :
    Reports .measure fp (tcStartMeasurement dur) := by
  intro sent x ok msg y h
  have hsent := sendCommand_reports h
  cases ok with
  | true => exact hsent
  | false =>
    refine hsent.imp_right fun hlong => ?_
    have hshort :
        (bytes "TESTSPEED " ++ decimalInt dur.toInt32.toInt ++ bytes "\n").length < 80 := by
      by_cases hdur : dur.toNat < 2147483648
      · rw [decimalInt_of_lt hdur]
        exact length_whole_startMeasurement x dur
      · exact length_printed_startMeasurement (not_lt.mp hdur)
    exact absurd hlong (by simp only [intMax]; omega)

/-- A reply handler goes by what the buffer begins with. -/
theorem awaitReply_begins {waits good : CsmState} {text : Bytes}
    (h : awaitReply waits good text a.got a.stale x = .ok (ok, y)) :
    if ok then a.Begins text else ¬ a.Begins text := by
  simp only [awaitReply, bind_eq_ok] at h
  obtain ⟨-, -, h⟩ := h
  cases hgot : a.got with
  | none =>
    simp only [hgot] at h
    obtain ⟨rfl, -⟩ := Prod.mk.inj (pure_eq_ok.mp h)
    rintro ⟨got, hsome, -⟩
    rw [hgot] at hsome
    cases hsome
  | some got =>
    simp only [hgot] at h
    split at h
    next hno =>
      obtain ⟨-, -, h⟩ := bind_eq_ok.mp h
      obtain ⟨rfl, -⟩ := Prod.mk.inj (pure_eq_ok.mp h)
      rintro ⟨got', hsome, hbegins⟩
      obtain rfl := Option.some.inj (hgot.symm.trans hsome)
      exact hno hbegins
    next hyes =>
      obtain ⟨z, -, h⟩ := bind_eq_ok.mp h
      obtain ⟨rfl, -⟩ := Prod.mk.inj (pure_eq_ok.mp h)
      exact ⟨got, hgot, not_not.mp hyes⟩

/-- The return value of the reply handler of the phase. -/
def Judges (p : Phase) (f : Option Bytes → (ℕ → UInt8) → Meta → Except Abort (Bool × Meta)) :
    Prop :=
  ∀ a x ok y, f (Answer.got a) a.stale x = .ok (ok, y) →
    if ok then p.Accepts a else p.Rejects a

theorem judges_auth : Judges .auth tcAuthedSocket := fun _ _ _ _ h => awaitReply_begins h

theorem judges_connect : Judges .connect tcConnectedSocket := fun _ _ _ _ h => awaitReply_begins h

theorem judges_setBw : Judges .setBw tcDidSetBwRate := fun _ _ _ _ h => awaitReply_begins h

end Client

/-! The steps of the loop that send and read. -/

section Steps
variable {rd : Round} {table : Msms} {s t : Loop} {m : UInt32} {c j : ℕ} {x : Meta} {p : Phase}
  {e : Measurement}

/-- A command that goes out is recorded. -/
theorem command_reported {fp : Bytes} {f : Option ℕ → Meta → Except Abort (Bool × Bytes × Meta)}
    (hf : Reports p fp f) (hx : s.co.metas[c]? = some x) :
    wp (command p f c) (fun ok t => if ok then
        t.co.trace = s.co.trace ++ [.sent c x.currentMId p] ∧ s.next.sent.isSome = true
      else t.co.trace = s.co.trace ∧ (s.next.sent = none ∨ p.TooLong fp x))
      (fun _ _ => True) s := by
  simp only [command, answer, wp_bind, wp_getState, wp_modifyState, wp_pure, wp_metaAt, hx]
  cases hr : f (s.os.script s.os.tick).sent x with
  | error err => simp only [fromExcept_error, wp_abort]
  | ok r =>
    obtain ⟨ok, msg, y⟩ := r
    have hreport := hf _ _ _ _ _ hr
    simp only [fromExcept_ok, wp_pure, wp_bind, wp_setMeta]
    cases ok with
    | true =>
      simp only [↓reduceIte, wp_bind, wp_record, wp_pure]
      exact ⟨trivial, hreport⟩
    | false =>
      simp only [Bool.false_eq_true, ↓reduceIte, wp_pure]
      exact ⟨trivial, hreport⟩

theorem reply_judged {f : Option Bytes → (ℕ → UInt8) → Meta → Except Abort (Bool × Meta)}
    (hf : Judges p f) (hx : s.co.metas[c]? = some x) :
    wp (reply p f c) (fun ok t => if ok then
        t.co.trace = s.co.trace ++ [.confirmed c x.currentMId p] ∧ p.Accepts s.next
      else t.co.trace = s.co.trace ∧ p.Rejects s.next) (fun _ _ => True) s := by
  simp only [reply, answer, wp_bind, wp_getState, wp_modifyState, wp_pure, wp_metaAt, hx]
  cases hr : f ((s.os.script s.os.tick).recv.map (·.take readBufLen)) (s.os.script s.os.tick).stale
    x with
  | error err => simp only [fromExcept_error, wp_abort]
  | ok r =>
    obtain ⟨ok, y⟩ := r
    have hjudge := hf (s.os.script s.os.tick) x ok y hr
    simp only [fromExcept_ok, wp_pure, wp_bind, wp_setMeta]
    cases ok with
    | true =>
      simp only [↓reduceIte, wp_bind, wp_record, wp_pure]
      exact ⟨trivial, hjudge⟩
    | false =>
      simp only [Bool.false_eq_true, ↓reduceIte, wp_pure]
      exact ⟨trivial, hjudge⟩

/-- Results are read: the client is done, or there are more to come, or nothing can be read. -/
theorem outputResult_judged {q : MsmParams} (hx : s.co.metas[c]? = some x)
    (hst : x.state = .measuring) :
    wp (outputResult q c) (fun ok t => if ok then
        t.co.trace = s.co.trace ∨
          t.co.trace = s.co.trace ++ [.confirmed c x.currentMId .measure] ∧ s.next.EndsResults
      else t.co.trace = s.co.trace ∧ Phase.measure.Rejects s.next) (fun _ _ => True) s := by
  simp only [outputResult, answer, wp_bind, wp_getState, wp_modifyState, wp_pure, wp_metaAt, hx]
  cases hr : tcOutputResult q.id q.fp (s.os.script s.os.tick).time
    ((s.os.script s.os.tick).recv.map (·.take readBufLen)) x with
  | error err => simp only [fromExcept_error, wp_abort]
  | ok r =>
    obtain ⟨ok, lines, y⟩ := r
    obtain ⟨-, hend⟩ := tcOutputResult_ok hst hr
    simp only [fromExcept_ok, wp_pure, wp_bind, wp_setMeta]
    rcases hend with ⟨hnone, rfl, rfl⟩ | ⟨rfl, htime, got, hgot, rfl⟩
    · simp only [hst, reduceCtorEq, Bool.false_eq_true, ↓reduceIte, wp_modifyState, wp_pure]
      exact ⟨trivial, hnone.imp_right Option.map_eq_none_iff.mp⟩
    · by_cases hover : got = [] ∨ doneResp <:+: cstr got
      · simp only [if_pos hover, ↓reduceIte, wp_bind, wp_modifyState, wp_record, wp_pure]
        exact .inr ⟨trivial, htime, got, hgot, hover⟩
      · simp only [if_neg hover, hst, reduceCtorEq, ↓reduceIte, wp_modifyState, wp_pure]
        exact .inl trivial

/-! The passes over the clients. -/

/-- A turn of a pass has done what it had a reason for, or there is a reason to give up. -/
def Passes (rd : Round) (m : UInt32) (s t : Loop) {α : Type} : Turn α Unit → Prop
  | .next _ => t.co.trace = s.co.trace ∨ ∃ e, t.co.trace = s.co.trace ++ [e] ∧ Reason rd s e
  | .leave _ => t.co.trace = s.co.trace ∧ FailsFor rd s m

theorem reports_message (a : Pass) (fp : Bytes) (slot : Slot) :
    Reports a.phase fp (a.message fp slot) := by
  cases a with
  | connect => exact reports_connect fp slot.nconn
  | setBw => exact reports_setBw fp slot.bw

/-- The turn of a client of the measurement. -/
theorem passes_commanded {α : Type} {s₀ : Coord} (h : Passing table m p s₀ j s.co)
    (he : s.co.msms.get? m = some e) {f : Option ℕ → Meta → Except Abort (Bool × Bytes × Meta)}
    (hf : Reports p (utf8 e.fp) f) {r : Turn α Unit} (h' : Commanded m j p f r s t) :
    Passes rd m s t r := by
  obtain ⟨x, hx, hcur, hrun⟩ := h'
  have hst : x.state = p.before := by simpa using h.states j x hx hcur
  have hreport := command_reported hf hx
  cases r with
  | leave =>
    obtain ⟨htrace, hno⟩ := wp_returns hreport hrun
    exact ⟨htrace, .unsent he hx hcur hst hno⟩
  | next =>
    obtain ⟨htrace, hyes⟩ := wp_returns hreport hrun
    refine .inr ⟨_, htrace, .sent hx hst (fun y hy hym => ?_) hyes⟩
    obtain ⟨i, hi⟩ := List.mem_iff_getElem?.mp hy
    have hstate := h.states i y hi (hym.trans hcur)
    split at hstate
    · exact .inr hstate
    · exact .inl hstate

theorem passes_greet (h : (Point.greet m j).Holds table s.co) {r : Turn Unit Unit}
    (hr : exec (authTurn m j) s = (.ok r, t)) : Passes rd m s t r := by
  obtain ⟨e, s₀, hpass⟩ := h
  have he : s.co.msms.get? m = some e := hpass.passing.msms ▸ hpass.entry
  rcases authTurn_ok hr with ⟨rfl, rfl⟩ | hsent
  · exact .inl rfl
  · exact passes_commanded hpass.passing he (reports_auth _) hsent

theorem passes_tell {b : Pass} {i : ℕ} {q : MsmParams} {r : Turn MsmParams Unit}
    (h : (Point.tell b i m j q).Holds table s.co)
    (hr : exec (assignTurn m b.phase.waits (b.tell q.fp) j q) s = (.ok r, t)) :
    Passes rd m s t r := by
  obtain ⟨e, s₀, hpass, -, -, rfl⟩ := h
  have he : s.co.msms.get? m = some e := hpass.passing.msms ▸ hpass.entry
  rcases assignTurn_ok hr with ⟨rfl, rfl, -⟩ | ⟨slot, hsent, -⟩
  · exact .inl rfl
  · exact passes_commanded hpass.passing he (reports_message b _ slot) hsent

theorem passes_start {i n : ℕ} {q : MsmParams} (h : (Point.start i m j n q).Holds table s.co)
    {r : Turn ℕ Unit} (hr : exec (startTurn m q.dur j n) s = (.ok r, t)) : Passes rd m s t r := by
  obtain ⟨e, s₀, hpass, -⟩ := h
  have he : s.co.msms.get? m = some e := hpass.passing.msms ▸ hpass.entry
  rcases startTurn_ok hr with ⟨rfl, rfl⟩ | hsent
  · exact .inl rfl
  · exact passes_commanded hpass.passing he (reports_measure _ q.dur) hsent

/-! The search for a client. -/

/-- Whatever the outside will answer, it answers for each idle client in turn. -/
theorem answered_idle (s : Loop) (cls : Bytes) : ∃ accepts : ℕ → Bool,
    Answered accepts s.os (tried accepts (idleClients s.co.metas cls)) ∧
      ∀ (i c : ℕ), (idleClients s.co.metas cls)[i]? = some c →
        (accepts c = true ↔ s.Connects i) := by
  have hnd := (idleClients_distinct s.co.metas).nodup cls
  let accepts : ℕ → Bool := fun c =>
    (s.os.script (s.os.tick + (idleClients s.co.metas cls).idxOf c)).accepts
  have hindex : ∀ (i c : ℕ), (idleClients s.co.metas cls)[i]? = some c →
      accepts c = (s.os.script (s.os.tick + i)).accepts := by
    intro i c hc
    obtain ⟨hlt, rfl⟩ := List.getElem?_eq_some_iff.mp hc
    simp only [accepts, hnd.idxOf_getElem i hlt]
  refine ⟨accepts, fun k c hk => ?_, fun i c hc => by rw [hindex i c hc, Loop.Connects]⟩
  obtain ⟨hlt, rfl⟩ := List.getElem?_eq_some_iff.mp hk
  exact (hindex k _ (List.prefix_iff_getElem?.mp (tried_first accepts _) k hlt)).symm

theorem needs_of_hiring {slot : Slot} {rest : List Slot} (h : Hiring table m (slot :: rest) s.co) :
    s.Needs m slot.cls := by
  obtain ⟨e, he, hired⟩ := h.hired
  refine ⟨e, he, ?_⟩
  rw [Measurement.classes, ← hired.classes.count_eq, List.count_append, List.map_cons,
    List.count_cons_self]
  omega

/-- The search finds the first idle client that accepts. -/
theorem nextAvailable_reason {slot : Slot} {rest : List Slot} {r : Option ℕ}
    (h : Hiring table m (slot :: rest) s.co)
    (hr : exec (nextAvailable slot.cls) s = (.ok r, t)) :
    t.co.trace = s.co.trace ∧ match r with
      | none => FailsFor rd s m
      | some c => Reason rd s (.claimed c m) := by
  obtain ⟨accepts, hans, hconnects⟩ := answered_idle s slot.cls
  have hidle : ∀ x ∈ s.co.metas, x.currentMId = 0 → x.Idle := fun x hx => h.rest.coherent.idle hx
  obtain ⟨hfound, -, fds, hco⟩ := wp_returns (E := fun _ _ => True)
    (wp_nextAvailable_accepts hidle hans) hr
  cases r with
  | none =>
    refine ⟨by rw [hco], .short (needs_of_hiring h) fun i hi => ?_⟩
    have hnone := List.find?_eq_none.mp hfound.symm _ (List.getElem_mem hi)
    rwa [hconnects i _ (List.getElem?_eq_getElem hi)] at hnone
  | some c =>
    obtain ⟨x, n, -, hco⟩ := hco
    obtain ⟨hacc, i, hi, rfl, hbefore⟩ := List.find?_eq_some_iff_getElem.mp hfound.symm
    refine ⟨by rw [hco], .claimed (needs_of_hiring h)
      (List.getElem?_eq_getElem hi) ((hconnects i _ (List.getElem?_eq_getElem hi)).mp hacc) ?_⟩
    intro j hj hcon
    have hlt := hj.trans hi
    have hno := hbefore j hj
    rw [(hconnects j _ (List.getElem?_eq_getElem hlt)).mpr hcon] at hno
    cases hno

/-! The replies. -/

theorem handler_judged (h : Quiet table s.co) (hx : s.co.metas[c]? = some x)
    (hst : x.state = p.waits) : wp (p.handler c) (fun ok t => if ok then
        t.co.trace = s.co.trace ∨
          t.co.trace = s.co.trace ++ [.confirmed c x.currentMId p] ∧ p.Accepts s.next
      else t.co.trace = s.co.trace ∧ p.Rejects s.next) (fun _ _ => True) s := by
  have hreply : ∀ {f : Option Bytes → (ℕ → UInt8) → Meta → Except Abort (Bool × Meta)},
      Judges p f → wp (reply p f c) (fun ok t => if ok then
          t.co.trace = s.co.trace ∨
            t.co.trace = s.co.trace ++ [.confirmed c x.currentMId p] ∧ p.Accepts s.next
        else t.co.trace = s.co.trace ∧ p.Rejects s.next) (fun _ _ => True) s := by
    intro f hf
    refine wp_conseq (reply_judged hf hx) ?_
    rintro (_ | _) t ht
    · exact ht
    · exact .inr ht
  cases p with
  | auth => exact hreply judges_auth
  | connect => exact hreply judges_connect
  | setBw => exact hreply judges_setBw
  | measure =>
    rw [Phase.handler, wp_bind, wp_metaAt, hx]
    simp only [wp_bind]
    apply wp_assertFillParams h (h.known_of_waits hx hst)
    intro e he hired
    exact outputResult_judged hx hst

theorem handled_reason {f : FdSets} {fd : Int} {fds : List Int}
    (h : (Point.events f (fd :: fds)).Holds table s.co)
    (hc : s.co.metas.findIdx? (fun x => x.fd = fd) = some c)
    (hr : exec (handleEvent f c) s = (.ok true, t)) :
    t.co.trace = s.co.trace ∨ ∃ e, t.co.trace = s.co.trace ++ [e] ∧ Reason rd s e := by
  obtain ⟨x, p, hx, hst, hrun⟩ := handled_run h hc hr
  refine (wp_returns (handler_judged h.1 hx hst) hrun).imp_right fun hend => ?_
  exact ⟨_, hend.1, .confirmed hx hst hend.2⟩

theorem denied_reason {f : FdSets} {fd : Int} {fds : List Int}
    (h : (Point.events f (fd :: fds)).Holds table s.co)
    (hc : s.co.metas.findIdx? (fun x => x.fd = fd) = some c) (hx : s.co.metas[c]? = some x)
    (hp : f.phaseOf x.fd = some p) (hr : exec (p.handler c) s = (.ok false, t)) :
    t.co = s.co ∧ FailsFor rd s x.currentMId := by
  have hst := waits_of_phaseOf h hc hx hp
  refine ⟨handler_failed h.1 hx hst hr, .rejected hx rfl hst ?_⟩
  exact (wp_returns (handler_judged h.1 hx hst) hr).2

/-! The start and the end of a measurement. -/

theorem picked_reason {u : Loop} {a : Answer} (ha : exec answer s = (.ok a, t))
    (hm : exec (schedCall (schedNext a.rank a.now)) t = (.ok m, u)) (hpos : m > 0) :
    u.co.trace = s.co.trace ∧ Reason rd s (.started m) := by
  obtain ⟨msms, hnext, hu⟩ := schedCall_ok hm
  rw [answer_co ha] at hnext hu
  refine ⟨by rw [hu], ?_⟩
  rcases schedNext_ok hnext with ⟨hzero, -⟩ | ⟨e, stop, hget, hready, -⟩
  · exact absurd (hzero ▸ hpos) (by decide)
  · exact .started hget hready

theorem unfit_reason {q : MsmParams} (h : (Point.find m).Holds table s.co)
    (hp : exec (fillParams m) s = (.ok (false, q), t)) : FailsFor rd s m := by
  obtain ⟨e, he, -⟩ := Option.map_eq_some_iff.mp h.1.live
  refine wp_returns (x := fillParams m) (Q := fun r _ => r.1 = false → FailsFor rd s m)
    (E := fun _ _ => True) ?_ hp rfl
  rw [fillParams, wp_bind, wp_co]
  cases hfill : fillMsmParams m s.co.msms with
  | error p => trivial
  | ok r =>
    rw [fillMsmParams_eq he (fillMsmParams_nulFree he hfill)] at hfill
    obtain rfl := Except.ok.inj hfill
    intro hno
    have hunfit : ¬ (e.dur ≠ 0 ∧ e.hosts ≠ []) := of_decide_eq_false hno
    exact .unfit he (by tauto)

theorem late_reason {i : ℕ} {q : MsmParams} {a : Answer} {now : Timeval} {u : Loop}
    (h : Quiet table s.co) (hi : s.co.known[i]? = some m)
    (hp : exec (assertFillParams m) s = (.ok q, t)) (ha : exec answer t = (.ok a, u))
    (hnow : a.time = some now) (hlate : now.tvSec.toUInt64 > q.failsafeStop) : FailsFor rd s m := by
  have hm := List.mem_of_getElem? hi
  obtain ⟨rfl, e, he, -, rfl⟩ := assertFillParams_ok h hm hp
  obtain ⟨rfl, -⟩ := answer_ok ha
  exact .late hm he hnow hlate

theorem finished_reason {i : ℕ} (h : (Point.done i m).Holds table s.co)
    (hb : exec (doneStage i m) s = (.ok true, t)) :
    t.co.trace = s.co.trace ++ [.succeeded m] ∧ Reason rd s (.succeeded m) := by
  have hturn : InTurn table i m 3 s.co := h
  obtain ⟨e, he, hired⟩ := (hturn.quiet.staffed m (List.mem_of_getElem? hturn.index)).hired
  obtain ⟨hall, fds, msms, -, ht⟩ := finished_co h hb
  exact ⟨by rw [ht], .succeeded he hired.classes hall⟩

end Steps

/-! Every move. -/

/-- Before `measurement_failed` it is settled what comes next in the history. -/
def Announces (d : Config) (e : Event) : Prop := ∃ m next, d.1 = .failing m next ∧ e = .failed m

/-- Where the loop goes on after a failure. -/
inductive Point.Resumes : Point → Prop
  | head : Resumes .head
  | giveUp : Resumes .giveUp
  | scan (i : ℕ) : Resumes (.scan i)
  | advance (i : ℕ) : Resumes (.advance i)

/-- The counter of the loop counts the waits in vain, everything is failed only if there were too
many, and after a failure there is something else to do. -/
structure Planned (r : Round) (d : Config) : Prop where
  stalled : Stalled r d.2.co.loopsWithoutProgress d
  awake : ∀ f fds, d.1 = .events f fds → d.2.co.loopsWithoutProgress = 0
  overdue : d.1 = .giveUp ∨ (∃ m, d.1 = .failing m .giveUp) →
    maxLoopsWithoutProgress < d.2.co.loopsWithoutProgress
  next : ∀ m next, d.1 = .failing m next → next.Resumes

section Moves
variable {r : Round} {table : Msms} {d d' : Config}

theorem Pass.next_ne_failing (a : Pass) {i : ℕ} {m m' : UInt32} {q : MsmParams} {next : Point} :
    a.next i m q ≠ .failing m' next := by
  cases a <;> simp [Pass.next]

/-- A wait from which nothing came was in vain. -/
theorem wp_epollWait_vain {E : Abort → Loop → Prop} {s : Loop} :
    wp (epollWait (fdSets s.co.metas).interesting)
      (fun w _ => w = none ∨ w = some [] → s.InVain) E s := by
  simp only [epollWait, wp_bind, answer, wp_getState, wp_modifyState, wp_pure]
  rintro hw fds hready fd hfd hin
  rw [show (s.os.script s.os.tick).ready = some fds from hready, Option.map_some] at hw
  have hnil := Option.some.inj (hw.resolve_left (Option.some_ne_none _))
  have hmem : fd ∈ (fds.filter (· ∈ (fdSets s.co.metas).interesting)).dedup :=
    List.mem_dedup.mpr (List.mem_filter.mpr ⟨hfd, by simpa using hin⟩)
  rcases List.take_eq_nil_iff.mp hnil with hzero | hnone
  · exact absurd hzero (by decide)
  · rw [hnone] at hmem
    cases hmem

/-- Where a move ends, unless a measurement has been failed. -/
theorem Move.ends (hm : Move d d') : (∃ m, d.1 = .failing m d'.1) ∨ match d'.1 with
    | .events _ _ => d.1 = .poll ∧ d'.2.co.loopsWithoutProgress = 0 ∨ ∃ f fds, d.1 = .events f fds
    | .giveUp => maxLoopsWithoutProgress < d'.2.co.loopsWithoutProgress
    | .failing _ next => next.Resumes ∧ (next = .giveUp → d.1 = .giveUp ∧ d'.2 = d.2)
    | _ => True := by
  cases hm with
  | @fails m => exact .inl ⟨m, rfl⟩
  | overdue _ hover => exact .inr hover
  | wake => exact .inr (.inl ⟨rfl, rfl⟩)
  | handled => exact .inr (.inr ⟨_, _, rfl⟩)
  | @noPass a | @allTold a => cases a <;> exact .inr trivial
  | drop => exact .inr ⟨.giveUp, fun _ => ⟨rfl, rfl⟩⟩
  | late => exact .inr ⟨.scan _, by simp⟩
  | unfit | unclaimed | ungreeted => exact .inr ⟨.advance 0, by simp⟩
  | untold | unstarted | denied => exact .inr ⟨.head, by simp⟩
  | _ => exact .inr trivial

theorem Move.stalled (hm : Move d d') (hreach : Reach r d) (h : Planned r d) :
    Stalled r d'.2.co.loopsWithoutProgress d' := by
  have hfresh : d'.2.co.loopsWithoutProgress = 0 → Stalled r d'.2.co.loopsWithoutProgress d' :=
    fun hzero => hzero ▸ .fresh (hreach.walk (.single hm))
  by_cases hpoll : d.1 = .giveUp ∨ d.1 = .poll
  · cases hm with
    | drop hlast => exact h.stalled.go (.drop hlast) (by simp)
    | skip hnone => exact h.stalled.go (.skip hnone) (by simp)
    | dropped | wake => exact hfresh rfl
    | timeout hr hw =>
      have hsame := (wp_returns (E := fun _ _ => True) wp_epollWait hr).1
      have hvain := wp_returns (E := fun _ _ => True) wp_epollWait_vain hr hw
      have hstalled := h.stalled.wait hr hvain
      simpa only [hsame] using hstalled
    | _ => simp at hpoll
  · have hpaced := paced_writes.move hm fun hd => absurd hd hpoll
    by_cases hev : ∃ f fds, d.1 = .events f fds
    · obtain ⟨f, fds, hd⟩ := hev
      exact hfresh (hpaced.trans (h.awake f fds hd))
    · rw [hpaced]
      apply h.stalled.go hm
      intro f fds hd'
      rcases hm.ends with ⟨m, hd⟩ | hends
      · nomatch hd' ▸ h.next m d'.1 hd
      · rw [hd'] at hends
        exact hends.elim (fun hd => hpoll (.inr hd.1)) hev

theorem Move.planned (hm : Move d d') (hreach : Reach r d) (h : Planned r d) : Planned r d' := by
  have hpaced : (d.1 = .giveUp ∨ d.1 = .poll → False) →
      d'.2.co.loopsWithoutProgress = d.2.co.loopsWithoutProgress :=
    fun hno => paced_writes.move hm fun hd => (hno hd).elim
  refine ⟨hm.stalled hreach h, fun f fds hd' => ?_, fun hd' => ?_, fun m next hd' => ?_⟩
  all_goals rcases hm.ends with ⟨m', hd⟩ | hends
  · nomatch hd' ▸ h.next m' d'.1 hd
  · rw [hd'] at hends
    rcases hends with ⟨-, hzero⟩ | ⟨f', fds', hd⟩
    · exact hzero
    · exact (hpaced (by simp [hd])).trans (h.awake f' fds' hd)
  · rcases hd' with hd' | ⟨m, hd'⟩
    · rw [hpaced (by simp [hd])]
      exact h.overdue (.inr ⟨m', hd' ▸ hd⟩)
    · nomatch hd' ▸ h.next m' d'.1 hd
  · rcases hd' with hd' | ⟨m', hd'⟩
    · rwa [hd'] at hends
    · rw [hd'] at hends
      obtain ⟨hd, hsame⟩ := hends.2 rfl
      exact hsame ▸ h.overdue (.inl hd)
  · nomatch hd' ▸ h.next m' d'.1 hd
  · rw [hd'] at hends
    exact hends.1

/-- What a move writes into the history. -/
abbrev Move.Writes (r : Round) (d d' : Config) : Prop :=
  Origins.Writes (fun d : Config => d.2.co.trace) (fun d => Reason r d.2) Announces d d'

theorem writes_nothing (htrace : d'.2.co.trace = d.2.co.trace)
    (hpoint : ∀ m next, d'.1 ≠ .failing m next) : Move.Writes r d d' :=
  .silent htrace fun _ ⟨m, next, hd', _⟩ => absurd hd' (hpoint m next)

theorem writes_later {m : UInt32} {next : Point} {t : Loop}
    (htrace : t.co.trace = d.2.co.trace) (h : FailsFor r d.2 m) :
    Move.Writes r d (.failing m next, t) := by
  refine .silent htrace ?_
  rintro e ⟨m', next', hpoint, rfl⟩
  obtain ⟨rfl, -⟩ := Point.failing.inj hpoint
  exact .inl (.failed h)

theorem writes_passes {m : UInt32} {α : Type} {a : α} {s t : Loop} {p p' : Point}
    (h : Passes r m s t (.next a)) (hpoint : ∀ m next, p' ≠ .failing m next) :
    Move.Writes r (p, s) (p', t) := by
  rcases h with hsame | ⟨e, htrace, he⟩
  · exact writes_nothing hsame hpoint
  · exact .entry htrace (.inl he) fun e' ⟨m, next, hd', _⟩ => hpoint m next hd'

theorem Move.writes (hm : Move d d') (hd : d.1.Holds table d.2.co) (h : Planned r d) :
    Move.Writes r d d' := by
  cases hm with
  | enter | overdue | dropped | scanned | staffed | allGreeted | advanced | allStarted | skip |
    drained => exact writes_nothing rfl (by simp)
  | drop hlast => exact writes_later rfl (.stalled (List.mem_of_getLast? hlast) h.stalled
      (h.overdue (.inl rfl)))
  | @fails m next s t hx =>
    obtain ⟨fds, msms, -, ht⟩ := fails_co hd hx
    refine .entry (by rw [ht]) (.inr ⟨m, next, rfl, rfl⟩) ?_
    rintro e ⟨m', next', hpoint, -⟩
    obtain rfl : next = .failing m' next' := hpoint
    nomatch h.next m _ rfl
  | @late i m p a now s t u hi hp ha hnow hlate =>
    have hsame : u.co = s.co := by rw [answer_co ha, assertFillParams_same hp]
    exact writes_later (by rw [hsame]) (late_reason hd hi hp ha hnow hlate)
  | inTime _ hp ha =>
    rw [assertFillParams_same hp] at ha
    exact writes_nothing (by rw [answer_co ha]) (by simp)
  | idle ha hm =>
    obtain ⟨msms, -, hu⟩ := schedCall_ok hm
    exact writes_nothing (by rw [hu, answer_co ha]) (by simp)
  | picked ha hm hpos =>
    obtain ⟨htrace, hreason⟩ := picked_reason ha hm hpos
    exact .entry (by simp only [htrace]) (.inl hreason) (by simp [Announces])
  | unfit hp => exact writes_later (by rw [fillParams_same hp]) (unfit_reason hd hp)
  | fit hp => exact writes_nothing (by rw [fillParams_same hp]) (by simp)
  | unclaimed hr =>
    obtain ⟨htrace, hreason⟩ := nextAvailable_reason hd hr
    exact writes_later htrace hreason
  | claimed hr =>
    obtain ⟨htrace, hreason⟩ := nextAvailable_reason hd hr
    exact .entry (by simp only [htrace]) (.inl hreason) (by simp [Announces])
  | greeted _ hr => exact writes_passes (passes_greet hd hr) (by simp)
  | ungreeted _ hr =>
    obtain ⟨htrace, hreason⟩ := passes_greet hd hr
    exact writes_later htrace hreason
  | turn _ hp => exact writes_nothing (by rw [assertFillParams_same hp]) (by simp)
  | pass hb | noBegin hb => exact writes_nothing (by rw [(isTotally_ok hb).1]) (by simp)
  | @noPass a i m q s t hb =>
    exact writes_nothing (by rw [(isTotally_ok hb).1]) fun _ _ => a.next_ne_failing
  | @allTold a i m q => exact writes_nothing rfl fun _ _ => a.next_ne_failing
  | told _ hr => exact writes_passes (passes_tell hd hr) (by simp)
  | untold _ hr =>
    obtain ⟨htrace, hreason⟩ := passes_tell hd hr
    exact writes_later htrace hreason
  | begin hb ha hr =>
    obtain ⟨msms, -, hv⟩ := schedCall_ok hr
    refine writes_nothing ?_ (by simp)
    rw [hv, answer_co ha, (isTotally_ok hb).1]
  | started _ hr => exact writes_passes (passes_start hd hr) (by simp)
  | unstarted _ hr =>
    obtain ⟨htrace, hreason⟩ := passes_start hd hr
    exact writes_later htrace hreason
  | finished hb =>
    obtain ⟨htrace, hreason⟩ := finished_reason hd hb
    exact .entry htrace (.inl hreason) (by simp [Announces])
  | @unfinished i m s t hb =>
    have hturn : InTurn table i m 3 s.co := hd
    have hsame := (wp_returns (wp_doneStage hturn.quiet hturn.index) hb).1
    exact writes_nothing (by rw [hsame]) (by simp)
  | timeout hr | wake hr =>
    have hsame := (wp_returns (E := fun _ _ => True) wp_epollWait hr).1
    exact writes_nothing (by simp only [hsame]) (by simp)
  | handled hc hr =>
    rcases handled_reason hd hc hr with hsame | ⟨e, htrace, he⟩
    · exact writes_nothing hsame (by simp)
    · exact .entry htrace (.inl he) (by simp [Announces])
  | denied hc hx hp hr hy =>
    obtain ⟨hsame, hreason⟩ := denied_reason hd hc hx hp hr
    rw [hsame, hx] at hy
    obtain rfl := Option.some.inj hy
    exact writes_later (by rw [hsame]) hreason

end Moves

/-! Every run. -/

section
variable {r : Round} {p : Point} {s : Loop}

theorem Reach.planned {d : Config} (h : Reach r d) : Planned r d := by
  refine h.induction_moves (fun hs hhead => ?_) fun hreach hm hplan => hm.planned hreach hplan
  obtain ⟨-, -, -, hzero⟩ := Round.start_os hs
  exact ⟨hzero ▸ .fresh hhead.reach, by simp, by simp, by simp⟩

/-- Every entry of the history has a reason: at some point of the round, when the history was what
is in front of the entry, it was due, and the next answers of the outside were the ones for it. -/
theorem history_justified (h : Reach r (p, s)) {past rest : List Event} {e : Event}
    (htrace : s.co.trace = past ++ e :: rest) :
    ∃ q t, Reach r (q, t) ∧ Walk (q, t) (p, s) ∧ t.co.trace = past ∧ Reason r t e := by
  obtain ⟨s₀, hs, hhead, hw⟩ := h.from_start
  have hreach : ∀ {d}, Walk (.head, s₀) d → Reach r d := fun hd => ⟨s₀, hhead, hd⟩
  have hstart : s₀.co.trace = [] := by
    obtain ⟨-, -, -, -, -, -, htrace, -⟩ := Round.start_ok hs
    exact htrace
  have hexplained : Origins.Explained Move (fun d : Config => d.2.co.trace) (fun d => Reason r d.2)
      Announces (.head, s₀) (p, s) := by
    apply Origins.explained hw hstart (by simp [Announces])
    intro _ _ hd hm
    obtain ⟨_, _, _, hholds⟩ := (hreach hd).holds
    exact hm.writes hholds (hreach hd).planned
  obtain ⟨⟨q, t⟩, hd, hrest, hpast, hreason⟩ := hexplained.entries past e rest htrace
  exact ⟨q, t, hreach hd, hrest, hpast, hreason⟩

theorem history_justified_twoClients :
    ∃ q t, Reach twoClients (q, t) ∧ Walk (q, t) (.head, twoClientsStart.after 5) ∧
      t.co.trace = (twoClientsStart.after 5).co.trace.dropLast ∧
      Reason twoClients t (.succeeded 1) := by
  have htrace : (twoClientsStart.after 5).co.trace =
      (twoClientsStart.after 5).co.trace.dropLast ++ .succeeded 1 :: [] := by decide +kernel
  exact history_justified (twoClients_atHead (Nat.le_refl 5)).reach htrace

end

end Flashflow
