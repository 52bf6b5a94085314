import Flashflow.Loop.Rounds

/-! What no operation of the loop changes, however it ends: who the clients are, and the history so
far. The client functions are all there is to look at: a relation that allows what they do allows
what the loop does with them. -/
namespace Flashflow
open Sched Program Arrays Outcome

/-- Who a client is, whatever it is doing. -/
def Meta.who (x : Meta) : Bytes × Bytes × Bytes × Option Bytes × Bool :=
  (x.cls, x.host, x.port, x.pw, x.isBg)

/-- The same clients, and a history that goes on. -/
structure Loop.Extends (s t : Loop) : Prop where
  who : t.co.metas.map Meta.who = s.co.metas.map Meta.who
  trace : s.co.trace <+: t.co.trace

instance : IsPreorder Loop Loop.Extends where
  refl _ := ⟨rfl, List.prefix_refl _⟩
  trans _ _ _ h h' := ⟨h'.who.trans h.who, h.trace.trans h'.trace⟩

/-! The functions on one client. -/

section Client
variable {x y : Meta} {st : CsmState}

theorem MovesTo.who (h : MovesTo st x y) : y.who = x.who := by
  obtain rfl | ⟨-, rfl⟩ := h <;> rfl

theorem tcMakeSocket_who {socket : Option ℕ} {resolved connected : Bool} {ret : Int}
    (h : tcMakeSocket socket resolved connected x = .ok (ret, y)) : y.who = x.who := by
  obtain ⟨-, ⟨-, -, rfl⟩ | ⟨n, -, -, -, -, rfl⟩⟩ := tcMakeSocket_ok h <;> rfl

/-- `f` leaves the client what it is. -/
def SendsAs (f : Option ℕ → Meta → Except Abort (Bool × Bytes × Meta)) : Prop :=
  ∀ sent x ok msg y, f sent x = .ok (ok, msg, y) → y.who = x.who

theorem tcFinishedWithMeta_who {closed : Option Int} (h : tcFinishedWithMeta x = .ok (closed, y)) :
    y.who = x.who := by
  simp only [tcFinishedWithMeta, bind_eq_ok, pure_eq_ok, Prod.mk.injEq] at h
  obtain ⟨z, hz, -, rfl⟩ := h
  rw [← (tcChangeState_moves hz).who]
  split <;> split <;> rfl

end Client

/-! The operations that only look at the state. -/

section Reads
variable {R : Loop → Loop → Prop} [IsPreorder Loop R]

theorem keeps_co : Keeps R co := keeps_of_wp fun s => wp_co.mpr (refl_of R s)

theorem keeps_metaAt (c : ℕ) : Keeps R (metaAt c) := by
  refine keeps_bind keeps_co fun s => ?_
  split
  · exact keeps_pure _
  · exact keeps_abort _

theorem keeps_numMetas : Keeps R numMetas := keeps_bind keeps_co fun _ => keeps_pure _

theorem keeps_fillParams (m : UInt32) : Keeps R (fillParams m) :=
  keeps_bind keeps_co fun _ => keeps_fromExcept _

theorem keeps_assertFillParams (m : UInt32) : Keeps R (assertFillParams m) :=
  keeps_bind (keeps_fillParams m) fun _ => keeps_bind (keeps_fromExcept _) fun _ => keeps_pure _

theorem keeps_assertState (c : ℕ) (st : CsmState) : Keeps R (assertState c st) :=
  keeps_bind (keeps_metaAt c) fun _ => keeps_fromExcept _

theorem keeps_isTotally (st : CsmState) (m : UInt32) : Keeps R (isTotally st m) :=
  keeps_bind keeps_co fun _ => keeps_pure _

end Reads

/-! What a relation allows that allows the client functions. -/

/-- The relation allows what the functions do with clients that are connected, and changes of the
coordinator that are not about the clients and do not take the history back. -/
structure AllowsConnected (R : Loop → Loop → Prop) : Prop where
  books : ∀ (s : Loop) (t : Coord), t.metas = s.co.metas → t.openFds = s.co.openFds →
    t.loopsWithoutProgress = s.co.loopsWithoutProgress → s.co.trace <+: t.trace →
    R s { s with co := t }
  answer : ∀ s : Loop, R s { s with os := { s.os with tick := s.os.tick + 1 } }
  claim : ∀ (s : Loop) {c : ℕ} {x : Meta} (m : UInt32), s.co.metas[c]? = some x →
    R s { s with co := { s.co with metas := s.co.metas.set c { x with currentMId := m } } }
  command : ∀ {p : Phase} {f : Option ℕ → Meta → Except Abort (Bool × Bytes × Meta)},
    (∀ {sent x ok msg y}, f sent x = .ok (ok, msg, y) → MovesTo p.waits x y) →
      ∀ c, Keeps R (command p f c)
  reply : ∀ {p : Phase} {f : Option Bytes → (ℕ → UInt8) → Meta → Except Abort (Bool × Meta)},
    (∀ {recv stale x ok y}, f recv stale x = .ok (ok, y) → MovesTo p.reached x y) →
      ∀ c, Keeps R (reply p f c)
  markFailed : ∀ c, Keeps R (markFailed c)
  finishedWithMeta : ∀ c, Keeps R (finishedWithMeta c)

/-- It also allows new connections. -/
structure Allows (R : Loop → Loop → Prop) : Prop extends AllowsConnected R where
  makeSocket : ∀ c, Keeps R (makeSocket c)

namespace AllowsConnected

section
variable {R : Loop → Loop → Prop} (h : AllowsConnected R)
include h

/-- A change of the coordinator that is not about the clients. -/
theorem modifyCo {f : Coord → Coord} (hmetas : ∀ s, (f s).metas = s.metas)
    (hfds : ∀ s, (f s).openFds = s.openFds)
    (hloops : ∀ s, (f s).loopsWithoutProgress = s.loopsWithoutProgress)
    (htrace : ∀ s, s.trace <+: (f s).trace) : Keeps R (modifyCo f) :=
  fun s => h.books s (f s.co) (hmetas s.co) (hfds s.co) (hloops s.co) (htrace s.co)

theorem answers : Keeps R Flashflow.answer := fun s => h.answer s

theorem record (e : Event) : Keeps R (record e) :=
  h.modifyCo (fun _ => rfl) (fun _ => rfl) (fun _ => rfl) fun _ => List.prefix_append _ _

theorem countFailed : Keeps R countFailed :=
  h.modifyCo (fun _ => rfl) (fun _ => rfl) (fun _ => rfl) fun _ => List.prefix_refl _

theorem authedSocket (c : ℕ) : Keeps R (authedSocket c) := h.reply awaitReply_moves c

theorem connectedSocket (c : ℕ) : Keeps R (connectedSocket c) := h.reply awaitReply_moves c

theorem didSetBwRate (c : ℕ) : Keeps R (didSetBwRate c) := h.reply awaitReply_moves c

variable [IsPreorder Loop R] {m : UInt32}

theorem schedCall {α : Type} (f : Msms → Except Panic (α × Msms)) : Keeps R (schedCall f) := by
  refine keeps_bind keeps_co fun s => keeps_bind (keeps_fromExcept _) fun r => ?_
  refine keeps_bind ?_ fun _ => keeps_pure _
  exact h.modifyCo (fun _ => rfl) (fun _ => rfl) (fun _ => rfl) fun _ => List.prefix_refl _

theorem measurementFailed (m : UInt32) : Keeps R (measurementFailed m) := by
  refine keeps_bind (h.record _) fun _ => keeps_bind keeps_numMetas fun n => ?_
  refine keeps_bind (keeps_forEach (fun c => ?_) n) fun _ => ?_
  · refine keeps_bind (keeps_metaAt c) fun x => keeps_ite ?_ (keeps_pure _)
    exact keeps_bind (h.markFailed c) fun _ => h.finishedWithMeta c
  · apply keeps_bind (h.schedCall _)
    intro _
    exact h.modifyCo (fun _ => rfl) (fun _ => rfl) (fun _ => rfl) fun _ => List.prefix_refl _

theorem failed (m : UInt32) : Keeps R (do
    Flashflow.measurementFailed m
    Flashflow.countFailed) :=
  keeps_bind (h.measurementFailed m) fun _ => h.countFailed

/-- The measurement is failed and counted, and then something is returned. -/
theorem failure {α : Type} (m : UInt32) (a : α) : Keeps R (do
    Flashflow.measurementFailed m
    Flashflow.countFailed
    pure a) :=
  keeps_bind (h.measurementFailed m) fun _ => keeps_bind h.countFailed fun _ => keeps_pure a

theorem authTurn (m : UInt32) (c : ℕ) : Keeps R (authTurn m c) := by
  refine keeps_bind (keeps_metaAt c) fun x => keeps_ite (keeps_pure _) ?_
  refine keeps_bind (keeps_assertState c _) fun _ => ?_
  apply keeps_bind (h.command tcAuthSocket_moves c)
  intro ok
  exact keeps_ite (keeps_pure _) (keeps_pure _)

theorem sendAuthMetas (m : UInt32) : Keeps R (sendAuthMetas m) := by
  refine keeps_bind keeps_numMetas fun n =>
    keeps_bind (keeps_forRange (fun c _ => h.authTurn m c) _ _) fun r => ?_
  cases r with
  | next => exact keeps_pure _
  | leave => exact keeps_pure _

/-! The stages of a turn. -/

theorem failsafeScan : Keeps R failsafeScan := by
  refine keeps_bind keeps_co fun s => keeps_whileFuel (fun i => ?_) _ _
  refine keeps_bind keeps_co fun s => ?_
  cases s.known[i]? with
  | none => exact keeps_pure _
  | some m =>
    refine keeps_bind (keeps_assertFillParams m) fun p => keeps_bind h.answers fun a => ?_
    cases a.time with
    | none => exact keeps_abort _
    | some now => exact keeps_ite (h.failure m _) (keeps_pure _)

omit h in
theorem assignTurn {st : CsmState} {tell : Slot → ℕ → LoopM Bool}
    (htell : ∀ slot c, Keeps R (tell slot c)) (j : ℕ) (q : MsmParams) :
    Keeps R (assignTurn m st tell j q) := by
  refine keeps_bind (keeps_metaAt j) fun x => keeps_ite ?_ (keeps_pure _)
  cases slots.firstFree q.slots x.cls with
  | none => exact keeps_pure _
  | some k =>
    simp only
    cases q.slots[k]? with
    | none => exact keeps_abort _
    | some slot =>
      refine keeps_bind (htell slot j) fun ok => keeps_ite (keeps_pure _) ?_
      exact keeps_bind (keeps_assertState j _) fun _ => keeps_pure _

theorem passOrFail {m : UInt32} {st : CsmState} {tell : Slot → ℕ → LoopM Bool}
    (htell : ∀ slot c, Keeps R (tell slot c)) (q : MsmParams) :
    Keeps R (passOrFail m st tell q) := by
  have hpass : Keeps R (assignPass m st tell q) :=
    keeps_bind keeps_numMetas fun n => keeps_forRange (assignTurn htell) n q
  refine keeps_bind hpass fun r => ?_
  cases r with
  | leave => exact h.failure m _
  | next q => exact keeps_bind (keeps_fromExcept _) fun _ => keeps_pure _

theorem connectStage (m : UInt32) (p : MsmParams) : Keeps R (connectStage m p) :=
  keeps_bind (keeps_isTotally _ m) fun _ => keeps_ite
    (h.passOrFail (fun _ => h.command tcTellConnect_moves) p) (keeps_pure _)

theorem setBwStage (m : UInt32) (p : MsmParams) : Keeps R (setBwStage m p) :=
  keeps_bind (keeps_isTotally _ m) fun _ => keeps_ite
    (h.passOrFail (fun _ => h.command tcSetBwRate_moves) p) (keeps_pure _)

theorem startTurn (m dur : UInt32) (j n : ℕ) : Keeps R (startTurn m dur j n) := by
  refine keeps_bind (keeps_metaAt j) fun x => keeps_ite ?_ (keeps_pure _)
  refine keeps_bind (h.command tcStartMeasurement_moves j) fun ok => keeps_ite (keeps_pure _) ?_
  exact keeps_bind (keeps_assertState j _) fun _ => keeps_pure _

theorem startStage (m : UInt32) (q : MsmParams) : Keeps R (startStage m q) := by
  refine keeps_bind (keeps_isTotally _ m) fun _ => keeps_ite ?_ (keeps_pure _)
  refine keeps_bind h.answers fun a => keeps_bind (h.schedCall _) fun _ => ?_
  refine keeps_bind keeps_numMetas fun n =>
    keeps_bind (keeps_forRange (h.startTurn m q.dur) _ _) fun r => ?_
  cases r with
  | leave => exact h.failure m _
  | next told => exact keeps_bind (keeps_fromExcept _) fun _ => keeps_pure _

theorem doneStage (i : ℕ) (m : UInt32) : Keeps R (doneStage i m) := by
  refine keeps_bind (keeps_isTotally _ m) fun _ => keeps_ite ?_ (keeps_pure _)
  refine keeps_bind (h.record _) fun _ => keeps_bind keeps_numMetas fun n => ?_
  refine keeps_bind (keeps_forEach (fun c => ?_) n) fun _ => ?_
  · refine keeps_bind (keeps_metaAt c) fun x => keeps_ite ?_ (keeps_pure _)
    exact keeps_bind (keeps_assertState c _) fun _ => h.finishedWithMeta c
  · refine keeps_bind (h.schedCall _) fun _ => keeps_bind ?_ fun _ => keeps_pure _
    exact h.modifyCo (fun _ => rfl) (fun _ => rfl) (fun _ => rfl) fun _ => List.prefix_refl _

theorem advanceTurn (i : ℕ) : Keeps R (advanceTurn i) := by
  refine keeps_bind keeps_co fun s => ?_
  cases s.known[i]? with
  | none => exact keeps_pure _
  | some m =>
    refine keeps_bind (keeps_assertFillParams m) fun p => ?_
    apply keeps_bind (h.connectStage m p)
    intro q
    cases q with
    | none => exact keeps_pure _
    | some q =>
      apply keeps_bind (h.setBwStage m q)
      intro q'
      cases q' with
      | none => exact keeps_pure _
      | some q' =>
        refine keeps_bind (h.startStage m q') fun ok => keeps_ite (keeps_pure _) ?_
        exact keeps_bind (h.doneStage i m) fun ok => keeps_ite (keeps_pure _) (keeps_pure _)

theorem advance : Keeps R advance :=
  keeps_bind keeps_co fun _ => keeps_whileFuel h.advanceTurn _ _

/-- A reply, and the end of the measurement if it is wrong. -/
theorem onReply {st : CsmState} {handler : ℕ → LoopM Bool} (hh : ∀ c, Keeps R (handler c)) (c : ℕ) :
    Keeps R (onReply st handler c) := by
  refine keeps_bind (hh c) fun ok => keeps_ite ?_ ?_
  · exact keeps_bind (keeps_metaAt c) fun x => h.failure _ _
  · exact keeps_bind (keeps_assertState c st) fun _ => keeps_pure _

theorem epollWait (fds : List Int) : Keeps R (epollWait fds) :=
  keeps_bind h.answers fun _ => keeps_pure _

variable (hout : ∀ q c, Keeps R (outputResult q c))
include hout

theorem handleEvent (f : FdSets) (c : ℕ) : Keeps R (handleEvent f c) := by
  refine keeps_bind (keeps_metaAt c) fun x => ?_
  refine keeps_ite (h.onReply h.authedSocket c) (keeps_ite (h.onReply h.connectedSocket c)
    (keeps_ite (h.onReply h.didSetBwRate c) (keeps_ite ?_ (keeps_bind ?_ fun _ => keeps_pure _))))
  · refine keeps_bind (keeps_assertFillParams _) fun p => ?_
    refine keeps_bind (hout p c) fun ok => keeps_ite ?_ (keeps_pure _)
    exact keeps_bind (keeps_metaAt c) fun x => h.failure _ _
  · exact h.modifyCo (fun _ => rfl) (fun _ => rfl) (fun _ => rfl) fun _ => List.prefix_refl _

theorem handleEvents (f : FdSets) (fds : List Int) : Keeps R (handleEvents f fds) := by
  induction fds with
  | nil => exact keeps_pure _
  | cons fd rest ih =>
    refine keeps_bind keeps_co fun s => ?_
    split
    · exact keeps_pure _
    · exact keeps_bind (h.handleEvent hout f _) fun ok => keeps_ite (keeps_pure _) ih

/-! A turn, if the relation does not look at `loops_without_progress`. -/

omit hout in
theorem giveUp (hloops : ∀ (s : Loop) (n : ℕ),
    R s { s with co := { s.co with loopsWithoutProgress := n } }) : Keeps R giveUp := by
  refine keeps_bind keeps_co fun s => keeps_ite ?_ (keeps_pure _)
  refine keeps_bind (keeps_whileFuel (fun _ => ?_) _ _) fun _ s => hloops s 0
  refine keeps_bind keeps_co fun s => ?_
  cases s.known.getLast? with
  | none => exact keeps_pure _
  | some m => exact h.failure m _

variable (hloops : ∀ (s : Loop) (n : ℕ),
  R s { s with co := { s.co with loopsWithoutProgress := n } })
include hloops

theorem pollStage : Keeps R pollStage := by
  have hidle : Keeps R (do
      Flashflow.modifyCo fun s => { s with loopsWithoutProgress := s.loopsWithoutProgress + 1 }
      pure true) :=
    keeps_bind (fun s => hloops s _) fun _ => keeps_pure _
  refine keeps_bind keeps_co fun s => keeps_ite (keeps_pure _) ?_
  apply keeps_bind (h.epollWait _)
  intro r
  split
  · exact hidle
  · exact hidle
  · exact keeps_bind (fun s => hloops s 0) fun _ => h.handleEvents hout _ _

end

end AllowsConnected

namespace Allows

section
variable {R : Loop → Loop → Prop} [IsPreorder Loop R] (h : Allows R)
include h

theorem nextAvailable (cls : Bytes) : Keeps R (nextAvailable cls) := by
  refine keeps_bind keeps_numMetas fun n =>
    keeps_bind (keeps_forRange (fun i _ => ?_) _ _) fun r => ?_
  · refine keeps_bind (keeps_metaAt i) fun x => keeps_ite ?_ (keeps_pure _)
    exact keeps_bind (h.makeSocket i) fun ret => keeps_ite (keeps_pure _) (keeps_pure _)
  · cases r with
    | next => exact keeps_pure _
    | leave => exact keeps_pure _

theorem claimAll (m : UInt32) (wanted : List Slot) : Keeps R (claimAll m wanted) := by
  induction wanted with
  | nil => exact keeps_pure _
  | cons slot rest ih =>
    refine keeps_bind (h.nextAvailable _) fun r => ?_
    cases r with
    | none => exact keeps_pure _
    | some c =>
      refine keeps_of_wp fun s => ?_
      rw [wp_bind, wp_metaAt]
      cases hx : s.co.metas[c]? with
      | none => exact refl_of R s
      | some x =>
        simp only
        rw [wp_bind, wp_setMeta]
        have hclaim := h.claim s m hx
        have hrest := keeps_bind (h.record (.claimed c m)) fun _ => ih
        refine wp_mono (wp_of_keeps hrest _) ?_ ?_
        all_goals exact fun _ _ ht => trans_of R hclaim ht

theorem findAndConnectMetas (m : UInt32) : Keeps R (findAndConnectMetas m) :=
  keeps_bind (keeps_fillParams m) fun _ => keeps_ite (keeps_pure _) (h.claimAll m _)

theorem startNew : Keeps R startNew := by
  refine keeps_bind h.answers fun a => keeps_bind (h.schedCall _) fun m => ?_
  refine keeps_ite (keeps_bind (h.record _) fun _ => ?_) (keeps_pure _)
  refine keeps_bind (h.findAndConnectMetas m) fun ok => keeps_ite (h.failed m) ?_
  refine keeps_bind ?_ fun _ =>
    keeps_bind (h.sendAuthMetas m) fun ok => keeps_ite (h.failed m) (keeps_pure _)
  exact h.modifyCo (fun _ => rfl) (fun _ => rfl) (fun _ => rfl) fun _ => List.prefix_refl _

/-- A turn of the main loop, whether it comes back to the head or not. -/
theorem mainLoopTurn (hout : ∀ q c, Keeps R (outputResult q c)) (hloops : ∀ (s : Loop) (n : ℕ),
    R s { s with co := { s.co with loopsWithoutProgress := n } }) : Keeps R mainLoopTurn := by
  apply keeps_bind (h.giveUp hloops)
  intro _
  apply keeps_bind h.failsafeScan
  intro _
  apply keeps_bind h.startNew
  intro _
  apply keeps_bind h.advance
  intro ok
  exact keeps_ite (keeps_pure _) (h.pollStage hout hloops)

end

end Allows

/-! A history that goes on. -/

section Operations
variable {s : Loop} {c : ℕ} {x x' : Meta}

theorem who_set {metas : List Meta} (hx : metas[c]? = some x) (hwho : x'.who = x.who) :
    (metas.set c x').map Meta.who = metas.map Meta.who := map_set_same Meta.who hx hwho

theorem keeps_modifyCo {f : Coord → Coord}
    (hmetas : ∀ s, (f s).metas.map Meta.who = s.metas.map Meta.who)
    (htrace : ∀ s, s.trace <+: (f s).trace) : Keeps Loop.Extends (modifyCo f) :=
  fun s => ⟨hmetas s.co, htrace s.co⟩

theorem keeps_answer : Keeps Loop.Extends answer :=
  keeps_of_wp fun _ => wp_answer fun _ _ => ⟨rfl, List.prefix_refl _⟩

theorem keeps_record (e : Event) : Keeps Loop.Extends (record e) :=
  keeps_modifyCo (fun _ => rfl) fun s => List.prefix_append s.trace [e]

/-- An operation that replaces the client `c` by one that is the same client. -/
theorem keeps_replace {α β : Type} {c : ℕ} {f : Meta → Except Abort α} {h : Meta → α → LoopM β}
    (hh : ∀ x r, f x = .ok r → ∃ y k, y.who = x.who ∧ Keeps Loop.Extends k ∧
      h x r = (do setMeta c y; k)) : Keeps Loop.Extends (do
        let x ← metaAt c
        let r ← fromExcept (f x)
        h x r) := by
  apply keeps_of_wp
  intro s
  simp only [wp_bind, wp_metaAt]
  cases hx : s.co.metas[c]? with
  | none => exact refl_of Loop.Extends s
  | some x =>
    simp only
    cases hr : f x with
    | error e => exact refl_of Loop.Extends s
    | ok r =>
      obtain ⟨y, k, hy, hk, heq⟩ := hh x r hr
      rw [fromExcept_ok, wp_pure, heq, wp_bind, wp_setMeta]
      refine wp_mono (wp_of_keeps hk _) ?_ ?_
      all_goals
        intro _ t ht
        exact ⟨ht.who.trans (who_set hx hy), ht.trace⟩

theorem keeps_makeSocket (c : ℕ) : Keeps Loop.Extends (makeSocket c) := by
  refine keeps_bind keeps_answer fun a => keeps_bind keeps_co fun s₀ => keeps_of_wp fun s => ?_
  simp only [wp_bind, wp_metaAt]
  cases hx : s.co.metas[c]? with
  | none => exact refl_of Loop.Extends s
  | some x =>
    simp only
    cases hr : tcMakeSocket (a.socket.map (freshFd s₀.openFds)) a.resolved a.connected x with
    | error e => exact refl_of Loop.Extends s
    | ok r =>
      simp only [fromExcept_ok, wp_pure, wp_bind, wp_modifyCo, wp_setMeta]
      exact ⟨who_set hx (tcMakeSocket_who hr), List.prefix_refl _⟩

theorem keeps_command (p : Phase) {f : Option ℕ → Meta → Except Abort (Bool × Bytes × Meta)}
    (hf : SendsAs f) (c : ℕ) : Keeps Loop.Extends (command p f c) := by
  apply keeps_bind keeps_answer
  intro a
  apply keeps_replace
  intro x r hr
  obtain ⟨ok, msg, y⟩ := r
  refine ⟨y, _, hf _ x _ _ _ hr, ?_, rfl⟩
  exact keeps_ite (keeps_bind (keeps_record _) fun _ => keeps_pure _) (keeps_pure _)

theorem keeps_reply (p : Phase)
    {f : Option Bytes → (ℕ → UInt8) → Meta → Except Abort (Bool × Meta)}
    (hf : ∀ recv stale x ok y, f recv stale x = .ok (ok, y) → y.who = x.who) (c : ℕ) :
    Keeps Loop.Extends (reply p f c) := by
  apply keeps_bind keeps_answer
  intro a
  apply keeps_replace
  intro x r hr
  obtain ⟨ok, y⟩ := r
  refine ⟨y, _, hf _ _ x _ _ hr, ?_, rfl⟩
  exact keeps_ite (keeps_bind (keeps_record _) fun _ => keeps_pure _) (keeps_pure _)

theorem keeps_outputResult (p : MsmParams) (c : ℕ) : Keeps Loop.Extends (outputResult p c) := by
  apply keeps_bind keeps_answer
  intro a
  apply keeps_replace
  intro x r hr
  obtain ⟨ok, lines, y⟩ := r
  refine ⟨y, _, (tcOutputResult_moves hr).who, ?_, rfl⟩
  refine keeps_bind (fun s => ⟨rfl, List.prefix_refl _⟩) fun _ => ?_
  exact keeps_ite (keeps_bind (keeps_record _) fun _ => keeps_pure _) (keeps_pure _)

theorem keeps_markFailed (c : ℕ) : Keeps Loop.Extends (markFailed c) := by
  apply keeps_replace
  intro x y hr
  exact ⟨y, pure (), (tcChangeState_moves hr).who, keeps_pure _, (bind_pure (setMeta c y)).symm⟩

theorem keeps_finishedWithMeta (c : ℕ) : Keeps Loop.Extends (finishedWithMeta c) := by
  apply keeps_replace
  intro x r hr
  obtain ⟨closed, y⟩ := r
  refine ⟨y, _, tcFinishedWithMeta_who hr, ?_, rfl⟩
  split
  · exact keeps_modifyCo (fun _ => rfl) fun _ => List.prefix_refl _
  · exact keeps_pure _

end Operations

theorem extends_allows : Allows Loop.Extends where
  books _ _ hmetas _ _ htrace := ⟨congrArg (List.map Meta.who) hmetas, htrace⟩
  answer _ := ⟨rfl, List.prefix_refl _⟩
  claim _ _ _ _ hx := ⟨who_set hx rfl, List.prefix_refl _⟩
  makeSocket := keeps_makeSocket
  command hf := keeps_command _ fun _ _ _ _ _ h => (hf h).who
  reply hf := keeps_reply _ fun _ _ _ _ _ h => (hf h).who
  markFailed := keeps_markFailed
  finishedWithMeta := keeps_finishedWithMeta

/-! A turn. -/

theorem extends_loops (s : Loop) (n : ℕ) :
    s.Extends { s with co := { s.co with loopsWithoutProgress := n } } := ⟨rfl, List.prefix_refl _⟩

theorem keeps_pollStage : Keeps Loop.Extends pollStage :=
  extends_allows.pollStage keeps_outputResult extends_loops

theorem keeps_mainLoopTurn : Keeps Loop.Extends mainLoopTurn :=
  extends_allows.mainLoopTurn keeps_outputResult extends_loops

end Flashflow
