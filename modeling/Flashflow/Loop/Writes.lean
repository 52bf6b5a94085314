import Flashflow.Loop.Standing
import Flashflow.Torclient.ClientTable

/-! The elements of the fixed arrays that the statements of the main loop write to. A move changes
nothing else. -/
namespace Flashflow
open Sched Program Arrays Outcome

/-- The arrays with room for `MAX_NUM_CTRL_SOCKS` elements that the program writes to. -/
inductive FixedArray where
  | metas | knownMIds | authingFds | connectingFds | settingBwFds | measuringFds
  deriving DecidableEq, Repr

/-! The loop that builds the arrays of descriptors. -/

/-- One turn of the loop; the counter of each array is its length. -/
def FdSets.add (f : FdSets) (x : Meta) : FdSets :=
  if x.state = .authing then { f with authing := f.authing ++ [x.fd] }
  else if x.state = .toldConnectTarget then { f with connecting := f.connecting ++ [x.fd] }
  else if x.state = .settingBw then { f with settingBw := f.settingBw ++ [x.fd] }
  else if x.state = .measuring then { f with measuring := f.measuring ++ [x.fd] }
  else f

/-- The arrays before the turn of client `i`. -/
def FdSets.before (metas : List Meta) (i : ℕ) : FdSets :=
  (metas.take i).foldl FdSets.add ⟨[], [], [], []⟩

/-- The descriptors that wait in a phase. -/
def FdSets.waiting (f : FdSets) : Phase → List Int
  | .auth => f.authing
  | .connect => f.connecting
  | .setBw => f.settingBw
  | .measure => f.measuring

/-- The array of the descriptors that wait in a phase. -/
def Phase.fds : Phase → FixedArray
  | .auth => .authingFds
  | .connect => .connectingFds
  | .setBw => .settingBwFds
  | .measure => .measuringFds

theorem FdSets.waiting_add (f : FdSets) (x : Meta) (p : Phase) :
    (f.add x).waiting p = f.waiting p ++ if x.state = p.waits then [x.fd] else [] := by
  unfold add
  cases hst : x.state <;> cases p <;> simp [waiting, Phase.waits]

theorem FdSets.waiting_foldl (f : FdSets) (metas : List Meta) (p : Phase) :
    (metas.foldl add f).waiting p = f.waiting p ++ fdsIn p.waits metas := by
  induction metas generalizing f with
  | nil => simp [fdsIn]
  | cons x metas ih =>
    rw [List.foldl_cons, ih, waiting_add, List.append_assoc, fdsIn, fdsIn, List.filter_cons]
    by_cases hst : x.state = p.waits <;> simp [hst]

theorem FdSets.waiting_fdSets (metas : List Meta) (p : Phase) :
    (fdSets metas).waiting p = fdsIn p.waits metas := by cases p <;> rfl

/-- The loop builds the sets that are registered with epoll. -/
theorem FdSets.foldl_add (metas : List Meta) :
    metas.foldl add ⟨[], [], [], []⟩ = fdSets metas := by
  have hsame : ∀ p : Phase,
      (metas.foldl add ⟨[], [], [], []⟩).waiting p = (fdSets metas).waiting p := by
    intro p
    rw [waiting_foldl, waiting_fdSets]
    cases p <;> rfl
  generalize metas.foldl add ⟨[], [], [], []⟩ = f at hsame
  cases f
  have h₁ := hsame .auth
  have h₂ := hsame .connect
  have h₃ := hsame .setBw
  have h₄ := hsame .measure
  simp only [waiting] at h₁ h₂ h₃ h₄
  rw [h₁, h₂, h₃, h₄]

/-- A client comes into an array behind at most the clients in front of it. -/
theorem FdSets.length_before_le (metas : List Meta) (i : ℕ) (p : Phase) :
    ((before metas i).waiting p).length ≤ i := by
  rw [before, foldl_add, waiting_fdSets, fdsIn, List.length_map]
  exact (List.length_filter_le _ _).trans (List.length_take_le _ _)

/-! What is written. -/

/-- While `tc_client_file_read` reads these lines, it writes to this element of `metas`. -/
inductive ClientTable.Stores : List Bytes → ClientTable → ℕ → Prop
  | here {line : Bytes} {lines : List Bytes} {t : ClientTable} (hroom : t.count < maxNumCtrlSocks)
      (hline : IsClient line) : Stores (line :: lines) t t.count
  | later {line : Bytes} {lines : List Bytes} {t t' : ClientTable} {i : ℕ}
      (hroom : t.count < maxNumCtrlSocks) (hread : t.readLine hroom line = .ok t')
      (h : Stores lines t' i) : Stores (line :: lines) t i

/-- The statement at a point of the main loop writes to this element of an array. -/
inductive Point.Writes : Point → Coord → FixedArray → ℕ → Prop
  /-- `tc_next_available` connects a free client of the class, and `current_m_id` is set. -/
  | claim {m : UInt32} {slot : Slot} {wanted : List Slot} {j : ℕ} {x : Meta} {s : Coord}
      (hx : s.metas[j]? = some x) (hfree : x.cls = slot.cls ∧ x.currentMId = 0) :
      Writes (.claim m (slot :: wanted)) s .metas j
  /-- `known_m_ids[num_known_m_ids++] = new_m_id` -/
  | push {m : UInt32} {s : Coord} : Writes (.claim m []) s .knownMIds s.known.length
  /-- `tc_auth_socket(&metas[j])` -/
  | greet {m : UInt32} {j : ℕ} {x : Meta} {s : Coord} (hx : s.metas[j]? = some x)
      (hcur : x.currentMId = m) : Writes (.greet m j) s .metas j
  /-- `tc_tell_connect(&metas[j], ..)` and `tc_set_bw_rate(&metas[j], ..)` -/
  | tell {a : Pass} {i : ℕ} {m : UInt32} {j : ℕ} {q : MsmParams} {x : Meta} {s : Coord}
      (hx : s.metas[j]? = some x) (hcur : x.currentMId = m) : Writes (.tell a i m j q) s .metas j
  /-- `tc_start_measurement(&metas[j], ..)` -/
  | start {i : ℕ} {m : UInt32} {j n : ℕ} {q : MsmParams} {x : Meta} {s : Coord}
      (hx : s.metas[j]? = some x) (hcur : x.currentMId = m) : Writes (.start i m j n q) s .metas j
  /-- `tc_mark_failed` and `tc_finished_with_meta` in `measurement_failed` -/
  | fail {m : UInt32} {next : Point} {j : ℕ} {x : Meta} {s : Coord} (hx : s.metas[j]? = some x)
      (hcur : x.currentMId = m) : Writes (.failing m next) s .metas j
  /-- `m_ids[i] = m_ids[--num_m]` -/
  | remove {m : UInt32} {next : Point} {i : ℕ} {s : Coord}
      (hi : s.known.findIdx? (fun id => id = m) = some i) : Writes (.failing m next) s .knownMIds i
  /-- `tc_finished_with_meta` when the measurement is done -/
  | finish {i : ℕ} {m : UInt32} {j : ℕ} {x : Meta} {s : Coord} (hx : s.metas[j]? = some x)
      (hcur : x.currentMId = m) : Writes (.done i m) s .metas j
  /-- `known_m_ids[i--] = known_m_ids[--num_known_m_ids]` -/
  | retire {i : ℕ} {m : UInt32} {s : Coord} : Writes (.done i m) s .knownMIds i
  /-- `authing_fds[num_authing_fds++] = metas[i].fd`, and the same for the other three -/
  | register {p : Phase} {i : ℕ} {x : Meta} {s : Coord} (hx : s.metas[i]? = some x)
      (hst : x.state = p.waits) :
      Writes .poll s p.fds ((FdSets.before s.metas i).waiting p).length
  /-- The handler for the reply of the client with the descriptor. -/
  | handle {f : FdSets} {fd : Int} {fds : List Int} {c : ℕ} {s : Coord}
      (hc : s.metas.findIdx? (fun x => x.fd = fd) = some c) :
      Writes (.events f (fd :: fds)) s .metas c

/-- In a call of `main_loop_once` this element of an array is written to. -/
inductive Round.Writes (r : Round) : FixedArray → ℕ → Prop
  | read {metas : Vector Entry maxNumCtrlSocks} {i : ℕ}
      (h : ClientTable.Stores (getlines r.clientFile) (.start metas) i) : r.Writes .metas i
  | loop {c : Config} {a : FixedArray} {i : ℕ} (hc : Reach r c) (h : c.1.Writes c.2.co a i) :
      r.Writes a i

/-! What is changed. -/

/-- Of the two arrays that the state has, only elements in `w` change. -/
structure Loop.ChangesOnly (w : FixedArray → ℕ → Prop) (s t : Loop) : Prop where
  metas : ∀ i, ¬ w .metas i → t.co.metas[i]? = s.co.metas[i]?
  known : ∀ i < t.co.known.length, ¬ w .knownMIds i → t.co.known[i]? = s.co.known[i]?

instance (w : FixedArray → ℕ → Prop) : IsPreorder Loop (Loop.ChangesOnly w) where
  refl _ := ⟨fun _ _ => rfl, fun _ _ _ => rfl⟩
  trans _ t _ h h' := by
    refine ⟨fun i hi => (h'.metas i hi).trans (h.metas i hi), fun i hlt hi => ?_⟩
    have hu := h'.known i hlt hi
    rw [List.getElem?_eq_getElem hlt] at hu
    obtain ⟨hlt', -⟩ := List.getElem?_eq_some_iff.mp hu.symm
    exact (h'.known i hlt hi).trans (h.known i hlt' hi)

section
variable {w : FixedArray → ℕ → Prop} {c j i k : ℕ} {m : UInt32} {s t : Loop} {x : Meta}
  {table : Msms} {ids : List UInt32} {p : Phase} {q : MsmParams}

theorem changesOnly_of_eq (hmetas : t.co.metas = s.co.metas) (hknown : t.co.known = s.co.known) :
    s.ChangesOnly w t := ⟨fun _ _ => by rw [hmetas], fun _ _ _ => by rw [hknown]⟩

theorem changesOnly_set (hc : w .metas c) (hmetas : t.co.metas = s.co.metas.set c x)
    (hknown : t.co.known = s.co.known) : s.ChangesOnly w t := by
  refine ⟨fun i hi => ?_, fun _ _ _ => by rw [hknown]⟩
  have hne : c ≠ i := fun heq => hi (heq ▸ hc)
  rw [hmetas, List.getElem?_set_ne hne]

theorem changesOnly_answer : Keeps (Loop.ChangesOnly w) answer :=
  keeps_of_wp fun _ => wp_answer fun _ _ => changesOnly_of_eq rfl rfl

theorem changesOnly_setMeta (hc : w .metas c) (x : Meta) :
    Keeps (Loop.ChangesOnly w) (setMeta c x) :=
  keeps_of_wp fun _ => wp_setMeta.mpr (changesOnly_set hc rfl rfl)

theorem changesOnly_record (e : Event) : Keeps (Loop.ChangesOnly w) (record e) :=
  keeps_of_wp fun _ => wp_record.mpr (changesOnly_of_eq rfl rfl)

theorem changesOnly_command (p : Phase)
    (f : Option ℕ → Meta → Except Abort (Bool × Bytes × Meta)) (hc : w .metas c) :
    Keeps (Loop.ChangesOnly w) (command p f c) := by
  refine keeps_bind changesOnly_answer fun a => keeps_bind (keeps_metaAt c) fun x => ?_
  refine keeps_bind (keeps_fromExcept _) fun r => keeps_bind (changesOnly_setMeta hc _) fun _ => ?_
  exact keeps_ite (keeps_bind (changesOnly_record _) fun _ => keeps_pure _) (keeps_pure _)

/-! The start of a measurement. -/

theorem schedCall_changesOnly {α : Type} {f : Msms → Except Panic (α × Msms)} {a : α}
    (h : exec (schedCall f) s = (.ok a, t)) : s.ChangesOnly w t :=
  wp_returns (wp_schedCall (Q := fun _ t => s.ChangesOnly w t) (E := fun _ _ => True)
    (fun _ _ _ => changesOnly_of_eq rfl rfl) fun _ _ => trivial) h

theorem claimed_changesOnly {slot : Slot} {wanted : List Slot} {y : Meta}
    (h : (Point.claim m (slot :: wanted)).Holds table s.co)
    (hr : exec (nextAvailable slot.cls) s = (.ok (some c), t)) :
    s.ChangesOnly (Point.Writes (.claim m (slot :: wanted)) s.co) { t with co := { t.co with
      metas := t.co.metas.set c { y with currentMId := m },
      trace := t.co.trace ++ [.claimed c m] } } := by
  obtain ⟨fds, -, x, n, hx, hcls, hcur, -, ht⟩ := wp_returns (E := fun _ _ => True)
    (wp_nextAvailable h.rest.coherent _) hr
  have hw : Point.Writes (.claim m (slot :: wanted)) s.co .metas c := .claim hx ⟨hcls, hcur⟩
  have hfound : s.ChangesOnly (Point.Writes (.claim m (slot :: wanted)) s.co) t :=
    changesOnly_set hw (by rw [ht]) (by rw [ht])
  apply trans_of _ hfound
  exact changesOnly_set (x := { y with currentMId := m }) hw rfl rfl

theorem staffed_known {s : Coord} (hlt : i < (s.known ++ [m]).length)
    (hi : ¬ (Point.claim m []).Writes s .knownMIds i) :
    (s.known ++ [m])[i]? = s.known[i]? := by
  have hne : i ≠ s.known.length := fun heq => hi (heq ▸ .push)
  rw [List.length_append, List.length_singleton] at hlt
  exact List.getElem?_append_left (by omega)

/-! The turns of the loops over the clients. -/

/-- In the turn of client `j` nothing happens to a client of another measurement. -/
theorem commanded_changesOnly {α : Type} {p : Phase} {r : Turn α Unit}
    {f : Option ℕ → Meta → Except Abort (Bool × Bytes × Meta)}
    (hw : ∀ x, s.co.metas[j]? = some x → x.currentMId = m → w .metas j)
    (h : Commanded m j p f r s t) : s.ChangesOnly w t := by
  obtain ⟨x, hx, hcur, hrun⟩ := h
  have hkeep : Keeps (Loop.ChangesOnly w) (command p f j) := changesOnly_command _ _ (hw x hx hcur)
  cases r with
  | next => exact hkeep.of_exec hrun
  | leave => exact hkeep.of_exec hrun

/-! The end of a measurement. -/

theorem getElem?_swapRemove_of_ne (hk : k < (swapRemove ids i).length) (hne : k ≠ i) :
    (swapRemove ids i)[k]? = ids[k]? := by
  rw [swapRemove, List.length_dropLast, List.length_set] at hk
  rw [swapRemove, List.getElem?_dropLast, List.length_set, if_pos hk, List.getElem?_set_ne hne.symm]

theorem changesOnly_release (hmetas : t.co.metas = s.co.metas.map (Meta.release m))
    (hrel : ∀ i x, s.co.metas[i]? = some x → x.currentMId = m → w .metas i)
    (hknown : ∀ i < t.co.known.length, ¬ w .knownMIds i → t.co.known[i]? = s.co.known[i]?) :
    s.ChangesOnly w t := by
  refine ⟨fun i hi => ?_, hknown⟩
  rw [hmetas, List.getElem?_map]
  cases hx : s.co.metas[i]? with
  | none => rfl
  | some x =>
    have hne : x.currentMId ≠ m := fun hcur => hi (hrel i x hx hcur)
    rw [Option.map_some, Meta.release, if_neg hne]

theorem fails_changesOnly {next : Point} (h : (Point.failing m next).Holds table s.co)
    (hx : exec (do
      measurementFailed m
      countFailed) s = (.ok (), t)) : s.ChangesOnly (Point.Writes (.failing m next) s.co) t := by
  refine wp_returns (Q := fun _ => s.ChangesOnly (Point.Writes (.failing m next) s.co))
    (E := fun _ _ => True) ?_ hx
  rw [wp_bind]
  apply wp_conseq (wp_measurementFailed_co h.1.coherent h.1.live)
  rintro _ _ ⟨fds, msms, -, -, rfl⟩
  refine wp_countFailed.mpr (changesOnly_release rfl (fun _ _ => .fail) fun i hlt hi => ?_)
  simp only [removeKnown] at hlt ⊢
  cases hfind : s.co.known.findIdx? (fun id => id = m) with
  | none => rfl
  | some k =>
    rw [hfind] at hlt
    exact getElem?_swapRemove_of_ne hlt fun heq => hi (.remove (heq ▸ hfind))

theorem finished_changesOnly (h : (Point.done i m).Holds table s.co)
    (hb : exec (doneStage i m) s = (.ok true, t)) :
    s.ChangesOnly (Point.Writes (.done i m) s.co) t := by
  have hturn : InTurn table i m 3 s.co := h
  obtain ⟨-, hknown, hmetas⟩ := wp_returns (wp_doneStage hturn.quiet hturn.index) hb
  apply changesOnly_release hmetas (fun _ _ => .finish)
  intro k hlt hk
  rw [hknown] at hlt ⊢
  exact getElem?_swapRemove_of_ne hlt fun heq => hk (heq ▸ .retire)

/-! Replies. -/

theorem changesOnly_reply (p : Phase)
    (f : Option Bytes → (ℕ → UInt8) → Meta → Except Abort (Bool × Meta)) (hc : w .metas c) :
    Keeps (Loop.ChangesOnly w) (reply p f c) := by
  refine keeps_bind changesOnly_answer fun a => keeps_bind (keeps_metaAt c) fun x => ?_
  refine keeps_bind (keeps_fromExcept _) fun r => keeps_bind (changesOnly_setMeta hc _) fun _ => ?_
  exact keeps_ite (keeps_bind (changesOnly_record _) fun _ => keeps_pure _) (keeps_pure _)

theorem changesOnly_outputResult (q : MsmParams) (hc : w .metas c) :
    Keeps (Loop.ChangesOnly w) (outputResult q c) := by
  refine keeps_bind changesOnly_answer fun a => keeps_bind (keeps_metaAt c) fun x => ?_
  refine keeps_bind (keeps_fromExcept _) fun r => keeps_bind (changesOnly_setMeta hc _) fun _ => ?_
  refine keeps_bind (fun s => changesOnly_of_eq rfl rfl) fun _ => ?_
  exact keeps_ite (keeps_bind (changesOnly_record _) fun _ => keeps_pure _) (keeps_pure _)

theorem changesOnly_handler (p : Phase) (hc : w .metas c) :
    Keeps (Loop.ChangesOnly w) (p.handler c) := by
  cases p with
  | auth => exact changesOnly_reply _ _ hc
  | connect => exact changesOnly_reply _ _ hc
  | setBw => exact changesOnly_reply _ _ hc
  | measure =>
    refine keeps_bind (keeps_metaAt c) fun x => ?_
    exact keeps_bind (keeps_assertFillParams _) fun q => changesOnly_outputResult q hc

theorem handleEvent_changesOnly {f : FdSets} (hc : w .metas c)
    (h : exec (handleEvent f c) s = (.ok true, t)) : s.ChangesOnly w t := by
  refine wp_returns (Q := fun ok t => ok = true → s.ChangesOnly w t) (E := fun _ _ => True) ?_ h rfl
  cases hx : s.co.metas[c]? with
  | none =>
    rw [handleEvent, wp_bind, wp_metaAt, hx]
    trivial
  | some x =>
    cases hp : f.phaseOf x.fd with
    | none => exact wp_handleEvent_stray hx hp fun _ => changesOnly_of_eq rfl rfl
    | some p =>
      refine wp_handleEvent_of hx hp (fun t ht _ => ?_) fun _ _ => wp_failed_event
      exact (changesOnly_handler p hc).of_exec ht

theorem changesOnly_epollWait (fds : List Int) : Keeps (Loop.ChangesOnly w) (epollWait fds) :=
  keeps_bind changesOnly_answer fun _ => keeps_pure _

/-! All moves. -/

/-- A move changes only what the statement at its point writes. -/
theorem Move.changesOnly {d d' : Config} (h : Move d d') (hd : d.1.Holds table d.2.co) :
    d.2.ChangesOnly (d.1.Writes d.2.co) d'.2 := by
  have hanswer : ∀ {a : Answer} {s t u : Loop} {w : FixedArray → ℕ → Prop},
      s.ChangesOnly w t → exec answer t = (.ok a, u) → s.ChangesOnly w u :=
    fun hs ha => trans_of _ hs (changesOnly_answer.of_exec ha)
  cases h with
  | enter | overdue | drop | dropped | scanned | allGreeted | advanced | allTold | allStarted |
    skip | drained => exact changesOnly_of_eq rfl rfl
  | fails hx => exact fails_changesOnly hd hx
  | late _ hp ha | inTime _ hp ha => exact hanswer ((keeps_assertFillParams _).of_exec hp) ha
  | idle ha hm => exact trans_of _ (changesOnly_answer.of_exec ha) (schedCall_changesOnly hm)
  | picked ha hm =>
    refine trans_of _ (changesOnly_answer.of_exec ha) (trans_of _ (schedCall_changesOnly hm) ?_)
    exact changesOnly_of_eq rfl rfl
  | unfit hp | fit hp => exact (keeps_fillParams _).of_exec hp
  | unclaimed hr =>
    obtain ⟨fds, -, ht⟩ := wp_returns (E := fun _ _ => True)
      (wp_nextAvailable hd.rest.coherent _) hr
    exact changesOnly_of_eq (by rw [ht]) (by rw [ht])
  | claimed hr hx => exact claimed_changesOnly hd hr
  | staffed => exact ⟨fun _ _ => rfl, fun _ => staffed_known⟩
  | greeted _ hr | ungreeted _ hr =>
    rcases authTurn_ok hr with ⟨-, rfl⟩ | hsent
    · exact changesOnly_of_eq rfl rfl
    · exact commanded_changesOnly (fun _ => .greet) hsent
  | turn _ hp => exact (keeps_assertFillParams _).of_exec hp
  | pass hb | noPass hb | noBegin hb => exact (keeps_isTotally _ _).of_exec hb
  | told _ hr | untold _ hr =>
    rcases assignTurn_ok hr with ⟨-, rfl, -⟩ | ⟨slot, hsent, -⟩
    · exact changesOnly_of_eq rfl rfl
    · exact commanded_changesOnly (fun _ => .tell) hsent
  | begin hb ha hr =>
    exact trans_of _ (hanswer ((keeps_isTotally _ _).of_exec hb) ha) (schedCall_changesOnly hr)
  | started _ hr | unstarted _ hr =>
    rcases startTurn_ok hr with ⟨-, rfl⟩ | hsent
    · exact changesOnly_of_eq rfl rfl
    · exact commanded_changesOnly (fun _ => .start) hsent
  | finished hb => exact finished_changesOnly hd hb
  | unfinished hb =>
    have hturn : InTurn table _ _ 3 _ := hd
    obtain ⟨rfl, -⟩ := wp_returns (wp_doneStage hturn.quiet hturn.index) hb
    exact refl_of _ _
  | timeout hr | wake hr =>
    apply trans_of _ ((changesOnly_epollWait _).of_exec hr)
    exact changesOnly_of_eq rfl rfl
  | handled hk hr => exact handleEvent_changesOnly (.handle hk) hr
  | denied hk _ _ hr _ => exact (changesOnly_handler _ (.handle hk)).of_exec hr

end
end Flashflow
