import Flashflow.Library.Interest
import Flashflow.Library.Refines
import Flashflow.Loop.Rounds

/-! The epoll instance. The turns of the main loop in which the descriptors are registered and
unregistered are those of the model, where `epoll_wait` is simply told which ones to look at. -/
namespace Flashflow
open Sched Program Interest

/-- The loop with its epoll instance. -/
structure Watching where
  loop : Loop
  epoll : Instance Int

abbrev EpollM := Prog Watching Abort

def Coord.isOpen (s : Coord) (fd : Int) : Bool := decide (0 ≤ fd ∧ fd.toNat ∈ s.openFds)

/-- The kernel takes what has been closed out of the interest list. While there is anything on the
list no stage opens a descriptor, so what is open after the stage has been open throughout. -/
def Watching.put (t : Loop) (w : Watching) : Watching := ⟨t, w.epoll.closed t.co.isOpen⟩

/-- What the loop does besides `epoll_ctl`. -/
def onLoop {α : Type} (x : LoopM α) : EpollM α := onPart Watching.loop Watching.put x

def epollAddAll (arr : List Int) : EpollM Unit :=
  modifyState fun w => { w with epoll := arr.foldl (Instance.add w.loop.co.isOpen) w.epoll }

def epollDeleteAll (arr : List Int) : EpollM Unit :=
  modifyState fun w => { w with epoll := arr.foldl (Instance.delete w.loop.co.isOpen) w.epoll }

/-- From `epoll_wait` on, which looks at the interest list. -/
def watchStage (f : FdSets) : EpollM Bool :=
  if f.interesting = [] then pure true
  else do
    let w ← getState
    match ← onLoop (epollWait w.epoll.watched) with
    | none | some [] => do
      onLoop (modifyCo fun s => { s with loopsWithoutProgress := s.loopsWithoutProgress + 1 })
      pure true
    | some fds => do
      onLoop (modifyCo fun s => { s with loopsWithoutProgress := 0 })
      onLoop (handleEvents f fds)

/-- The part of the main loop from the descriptor sets on, to `main_loop_end`. -/
def epollStage : EpollM Bool := do
  let w ← getState
  let f := fdSets w.loop.co.metas
  epollAddAll f.authing
  epollAddAll f.connecting
  epollAddAll f.settingBw
  epollAddAll f.measuring
  if ¬ (← watchStage f) then pure false
  else do
    epollDeleteAll f.authing
    epollDeleteAll f.connecting
    epollDeleteAll f.settingBw
    epollDeleteAll f.measuring
    pure true

/-- One turn of `while (!sched_finished())`. Before the descriptor sets are made there is nothing to
unregister. -/
def epollTurn : EpollM Bool := do
  onLoop giveUp
  onLoop failsafeScan
  onLoop startNew
  if ¬ (← onLoop advance) then pure true else epollStage

/-! The descriptors that are registered. -/

section Descriptors
variable {table : Msms} {s : Coord} {st : CsmState}

theorem Coherent.interesting_open (h : Coherent table s) :
    ∀ fd ∈ (fdSets s.metas).interesting, s.isOpen fd = true := by
  intro fd hfd
  obtain ⟨p, hin⟩ := mem_interesting_iff.mp hfd
  obtain ⟨x, hx, rfl⟩ := List.mem_map.mp hin
  obtain ⟨hmem, hst⟩ := List.mem_filter.mp hx
  have hpos := h.fd_of_waits hmem (of_decide_eq_true hst)
  exact decide_eq_true ⟨hpos, h.opened x hmem hpos⟩

/-- A client waits for one thing only. -/
theorem Coherent.fdsIn_disjoint (h : Coherent table s) (p : Phase) (hne : p.waits ≠ st) :
    ∀ fd ∈ fdsIn p.waits s.metas, fd ∉ fdsIn st s.metas := by
  intro fd hfd hin
  obtain ⟨x, hx, rfl⟩ := List.mem_map.mp hfd
  obtain ⟨hmem, hst⟩ := List.mem_filter.mp hx
  have hst := of_decide_eq_true hst
  obtain ⟨c, hc⟩ := List.mem_iff_getElem?.mp hmem
  exact hne (hst.symm.trans ((mem_fdsIn h hc (h.fd_of_waits hmem hst) st).mp hin))

theorem Coherent.fdsIn_nodup (h : Coherent table s) (p : Phase) :
    (fdsIn p.waits s.metas).Nodup := by
  have hpair : s.metas.Pairwise fun x y => 0 ≤ x.fd → x.fd ≠ y.fd := by
    apply List.pairwise_iff_getElem.mpr
    intro i j hi hj hij hpos heq
    have hsame := h.fds i j _ _ (List.getElem?_eq_getElem hi) (List.getElem?_eq_getElem hj) heq hpos
    exact Nat.ne_of_lt hij hsame
  refine List.pairwise_map.mpr ((hpair.filter _).imp_of_mem fun {x y} hx _ hne => hne ?_)
  obtain ⟨hmem, hst⟩ := List.mem_filter.mp hx
  exact h.fd_of_waits hmem (of_decide_eq_true hst)

theorem Coherent.interesting_nodup (h : Coherent table s) :
    (fdSets s.metas).interesting.Nodup := by
  have happend : ∀ {l : List Int} {p : Phase}, l.Nodup →
      (∀ fd ∈ l, fd ∉ fdsIn p.waits s.metas) → (l ++ fdsIn p.waits s.metas).Nodup :=
    fun hl hdis => List.nodup_append'.mpr ⟨hl, h.fdsIn_nodup _, fun fd hfd => hdis fd hfd⟩
  refine happend (p := .measure) (happend (p := .setBw) (happend (p := .connect)
    (h.fdsIn_nodup .auth) ?_) ?_) ?_
  · exact h.fdsIn_disjoint .auth (by decide)
  · exact List.forall_mem_append.mpr ⟨h.fdsIn_disjoint .auth (by decide),
      h.fdsIn_disjoint .connect (by decide)⟩
  · exact List.forall_mem_append.mpr ⟨List.forall_mem_append.mpr
      ⟨h.fdsIn_disjoint .auth (by decide), h.fdsIn_disjoint .connect (by decide)⟩,
      h.fdsIn_disjoint .setBw (by decide)⟩

end Descriptors

/-! The stages of a turn. -/

section Stages
variable {table : Msms} {w : Watching} {α : Type} {y : LoopM α}

/-- A stage that opens and closes nothing leaves the interest list alone. -/
theorem refines_still (hopen : ∀ fd ∈ w.epoll.watched, w.loop.co.isOpen fd = true)
    (h : wp y (fun _ t => t.co.openFds = w.loop.co.openFds) (fun _ _ => True) w.loop) :
    Refines Watching.loop (onLoop y) y (fun _ u => u.epoll = w.epoll ∧
      u.loop.co.openFds = w.loop.co.openFds) w := by
  apply refines_onPart fun _ _ => rfl
  apply wp_conseq h
  intro _ t ht
  have hstill : w.epoll.closed t.co.isOpen = w.epoll := by
    apply Instance.closed_of_open
    intro fd hfd
    rw [Coord.isOpen, ht]
    exact hopen fd hfd
  exact ⟨hstill, ht⟩

theorem refines_co {x : EpollM α} {g : Coord → LoopM α} {Q : α → Watching → Prop}
    (h : Refines Watching.loop x (g w.loop.co) Q w) : Refines Watching.loop x (co >>= g) Q w := h

/-- From `epoll_wait` on: with all that is interesting on the interest list, it is told the same. -/
theorem watchStage_refines (h : Coherent table w.loop.co)
    (hk : w.epoll.watched = (fdSets w.loop.co.metas).interesting) :
    Refines Watching.loop (watchStage (fdSets w.loop.co.metas)) pollStage
      (fun _ u => u.epoll.notAdded = w.epoll.notAdded ∧ u.epoll.notDeleted = w.epoll.notDeleted ∧
        ∀ fd, fd ∈ u.epoll.watched ↔
          fd ∈ (fdSets w.loop.co.metas).interesting ∧ u.loop.co.isOpen fd = true) w := by
  refine refines_co ?_
  dsimp only
  have hopen : ∀ fd ∈ w.epoll.watched, w.loop.co.isOpen fd = true := hk ▸ h.interesting_open
  unfold watchStage
  split
  next hnone =>
    refine refines_pure ⟨rfl, rfl, fun fd => ?_⟩
    rw [hk, hnone]
    simp
  next =>
    refine refines_get ?_
    rw [hk]
    have hwait : wp (epollWait (fdSets w.loop.co.metas).interesting)
        (fun _ t => t.co.openFds = w.loop.co.openFds) (fun _ _ => True) w.loop :=
      wp_conseq wp_epollWait fun _ _ ht => congrArg Coord.openFds ht.1
    apply refines_bind (refines_still hopen hwait)
    intro r u hu
    have hopen' : ∀ fd ∈ u.epoll.watched, u.loop.co.isOpen fd = true := by
      intro fd hfd
      rw [Coord.isOpen, hu.2]
      exact hopen fd (hu.1 ▸ hfd)
    have hstill : ∀ n : Coord → ℕ, Refines Watching.loop
        (onLoop (modifyCo fun s => { s with loopsWithoutProgress := n s }))
        (modifyCo fun s => { s with loopsWithoutProgress := n s })
        (fun _ v => v.epoll = w.epoll ∧ v.loop.co.openFds = w.loop.co.openFds) u := by
      intro n
      refine (refines_still hopen' ?_).mono fun _ v hv => ⟨hv.1.trans hu.1, hv.2.trans hu.2⟩
      rfl
    have hnone : ∀ v : Watching, v.epoll = w.epoll ∧ v.loop.co.openFds = w.loop.co.openFds →
        v.epoll.notAdded = w.epoll.notAdded ∧ v.epoll.notDeleted = w.epoll.notDeleted ∧
        ∀ fd, fd ∈ v.epoll.watched ↔
          fd ∈ (fdSets w.loop.co.metas).interesting ∧ v.loop.co.isOpen fd = true := by
      rintro v ⟨hepoll, hfds⟩
      refine ⟨hepoll ▸ rfl, hepoll ▸ rfl, fun fd => ?_⟩
      rw [hepoll, hk, Coord.isOpen, hfds]
      exact (and_iff_left_of_imp (h.interesting_open fd)).symm
    rcases r with _ | _ | ⟨fd, fds⟩
    · exact refines_bind (hstill _) fun _ v hv => refines_pure (hnone v hv)
    · exact refines_bind (hstill _) fun _ v hv => refines_pure (hnone v hv)
    · apply refines_bind (hstill _)
      rintro _ v ⟨hepoll, -⟩
      apply refines_onPart fun _ _ => rfl
      apply wp_of_returns
      intro _ t _
      rw [Watching.put, Instance.closed, hepoll, hk]
      exact ⟨rfl, rfl, fun fd => List.mem_filter⟩

/-- From the descriptor sets on, to `main_loop_end`. -/
theorem epollStage_refines (h : Coherent table w.loop.co) (hk : w.epoll.watched = []) :
    Refines Watching.loop epollStage pollStage (fun ok u => ok = true → u.epoll.watched = [] ∧
      u.epoll.notAdded = w.epoll.notAdded ∧ ∃ gone,
        u.epoll.notDeleted = w.epoll.notDeleted ++ gone ∧
        ∀ fd ∈ gone, u.loop.co.isOpen fd = false) w := by
  obtain ⟨t, k⟩ := w
  have hadd : (fdSets t.co.metas).interesting.foldl (Instance.add t.co.isOpen) k =
      { k with watched := (fdSets t.co.metas).interesting } := by
    rw [Instance.foldl_add h.interesting_open (by rw [hk]; exact h.interesting_nodup), hk]
    rfl
  simp only [FdSets.interesting, List.foldl_append] at hadd
  refine refines_get ?_
  refine refines_modify rfl (refines_modify rfl (refines_modify rfl (refines_modify rfl ?_)))
  dsimp only
  rw [hadd, ← bind_pure pollStage]
  apply refines_bind (watchStage_refines
    (w := ⟨t, { k with watched := (fdSets t.co.metas).interesting }⟩) h rfl)
  rintro ok u ⟨hadded, hdeleted, hwatched⟩
  cases ok with
  | false => exact refines_pure fun hok => absurd hok Bool.false_ne_true
  | true =>
    refine refines_modify rfl (refines_modify rfl (refines_modify rfl (refines_modify rfl ?_)))
    have hdel := Instance.foldl_delete h.interesting_nodup hwatched
    simp only [FdSets.interesting, List.foldl_append] at hdel
    apply refines_pure
    intro _
    dsimp only
    rw [hdel]
    refine ⟨rfl, hadded, _, congrArg (· ++ _) hdeleted, fun fd hfd => ?_⟩
    simpa using (List.mem_filter.mp hfd).2

/-- A stage in front of the descriptor sets, when nothing is registered. -/
theorem refines_stage {k : Instance Int} (hk : k.watched = []) (hw : w.epoll = k)
    (h : wp y (fun _ t => Quiet table t.co) (Aborted table) w.loop) :
    Refines Watching.loop (onLoop y) y (fun _ u => u.epoll = k ∧ Quiet table u.loop.co) w := by
  apply refines_onPart fun _ _ => rfl
  have hnone : ∀ t : Loop, k.closed t.co.isOpen = k := by
    intro t
    apply Instance.closed_of_open
    intro fd hfd
    rw [hk] at hfd
    cases hfd
  apply wp_mono h
  · intro _ t ht
    rw [Watching.put, hw]
    exact ⟨hnone t, ht⟩
  · intro _ _ _
    trivial

theorem epollTurn_refines (h : Quiet table w.loop.co) (hk : w.epoll.watched = []) :
    Refines Watching.loop epollTurn mainLoopTurn (fun ok u => ok = true → u.epoll.watched = [] ∧
      u.epoll.notAdded = w.epoll.notAdded ∧ ∃ gone,
        u.epoll.notDeleted = w.epoll.notDeleted ++ gone ∧
        ∀ fd ∈ gone, u.loop.co.isOpen fd = false) w := by
  apply refines_bind (refines_stage hk rfl (wp_giveUp h))
  intro _ u hu
  apply refines_bind (refines_stage hk hu.1 (wp_failsafeScan hu.2))
  intro _ u hu
  apply refines_bind (refines_stage hk hu.1 (wp_startNew hu.2))
  intro _ u hu
  apply refines_bind (refines_stage hk hu.1 (wp_advance hu.2))
  rintro ok u ⟨hepoll, hq⟩
  rw [← hepoll] at hk ⊢
  cases ok with
  | false =>
    exact refines_pure fun _ => ⟨hk, rfl, [], (List.append_nil _).symm, fun _ hfd => by cases hfd⟩
  | true => exact epollStage_refines hq.coherent hk

end Stages

/-! The runs. Each call of `main_loop_once` makes an instance of its own. -/

/-- A turn of the main loop that comes back to its head. -/
def EpollStep (w w' : Watching) : Prop :=
  schedFinished w.loop.co.msms = false ∧ exec epollTurn w = (.ok true, w')

/-- The states at the head of the main loop, with the epoll instance. -/
inductive EpollHead : Round → Watching → Prop
  | first {r : Round} {s : Loop} (hbase : r.base = .empty) (hs : r.start = .ok (some s)) :
      EpollHead r ⟨s, .create⟩
  | again {r r' : Round} {s : Loop} {w' : Watching} (h : EpollHead r' w')
      (hexit : schedFinished w'.loop.co.msms = true) (hbase : r.base = w'.loop.co.msms)
      (hs : r.start = .ok (some s)) : EpollHead r ⟨s, .create⟩
  | turn {r : Round} {w w' : Watching} (h : EpollHead r w) (hs : EpollStep w w') : EpollHead r w'

section
variable {r : Round} {s : Loop} {w w' : Watching}

theorem EpollStep.turn (hs : EpollStep w w') {table : Msms} (h : Quiet table w.loop.co)
    (hk : w.epoll.watched = []) : LoopStep w.loop w'.loop ∧ w'.epoll.watched = [] ∧
      w'.epoll.notAdded = w.epoll.notAdded ∧ ∃ gone,
        w'.epoll.notDeleted = w.epoll.notDeleted ++ gone ∧
        ∀ fd ∈ gone, w'.loop.co.isOpen fd = false := by
  obtain ⟨hfin, hx⟩ := hs
  obtain ⟨hret, hloop, hpost⟩ := epollTurn_refines h hk
  have hend := wp_returns hpost hx rfl
  rw [hx] at hret hloop
  exact ⟨⟨hfin, Prod.ext hret.symm hloop.symm⟩, hend⟩

theorem EpollHead.tidy (h : EpollHead r w) :
    AtHead r w.loop ∧ w.epoll.watched = [] ∧ w.epoll.notAdded = [] := by
  induction h with
  | first hbase hs => exact ⟨.first hbase hs, rfl, rfl⟩
  | again _ hexit hbase hs ih => exact ⟨.again ih.1 hexit hbase hs, rfl, rfl⟩
  | turn _ hs ih =>
    obtain ⟨hhead, hk, hadded⟩ := ih
    obtain ⟨ms, table, -, hq⟩ := hhead.quiet
    obtain ⟨hstep, hk', hadded', -⟩ := hs.turn hq hk
    exact ⟨hhead.turn hstep, hk', hadded'.trans hadded⟩

/-- Every run of the model is one with an epoll instance. -/
theorem AtHead.exists_epoll (h : AtHead r s) : ∃ k, EpollHead r ⟨s, k⟩ := by
  induction h with
  | first hbase hs => exact ⟨_, .first hbase hs⟩
  | again _ hexit hbase hs ih =>
    obtain ⟨k, hk⟩ := ih
    exact ⟨_, .again hk hexit hbase hs⟩
  | turn _ hs ih =>
    obtain ⟨k, hk⟩ := ih
    obtain ⟨hhead, hwatched, -⟩ := hk.tidy
    obtain ⟨ms, table, -, hq⟩ := hhead.quiet
    obtain ⟨hret, hloop, -⟩ := epollTurn_refines (w := ⟨_, k⟩) hq hwatched
    rw [hs.2] at hret hloop
    dsimp only at hloop
    subst hloop
    exact ⟨_, hk.turn ⟨hs.1, Prod.ext hret rfl⟩⟩

/-- The loop with its epoll instance does what the model does, in all runs. Between turns nothing is
registered, no descriptor is refused when it is added, and one that is refused when it is deleted
has been closed. -/
theorem epoll_refines :
    (∀ w, EpollHead r w → AtHead r w.loop ∧ w.epoll.watched = [] ∧ w.epoll.notAdded = [] ∧
      (exec epollTurn w).1 = (exec mainLoopTurn w.loop).1 ∧
      (exec epollTurn w).2.loop = (exec mainLoopTurn w.loop).2 ∧
      ∀ w', EpollStep w w' → ∃ gone, w'.epoll.notDeleted = w.epoll.notDeleted ++ gone ∧
        ∀ fd ∈ gone, w'.loop.co.isOpen fd = false) ∧
    ∀ s, AtHead r s → ∃ k, EpollHead r ⟨s, k⟩ := by
  refine ⟨fun w h => ?_, fun s => AtHead.exists_epoll⟩
  obtain ⟨hhead, hk, hadded⟩ := h.tidy
  obtain ⟨ms, table, -, hq⟩ := hhead.quiet
  obtain ⟨hret, hloop, -⟩ := epollTurn_refines hq hk
  refine ⟨hhead, hk, hadded, hret, hloop, fun w' hs => ?_⟩
  obtain ⟨-, -, -, hgone⟩ := hs.turn hq hk
  exact hgone

/-- A round in which the first reply ends the measurement, with both of its clients. -/
def denyingClients : Round := { twoClients with os := { twoClients.os with
  script := fun tick => { twoClients.os.script tick with recv := some (bytes "515 NO") } } }

def denyingStart : Watching := ⟨{ twoClientsStart with os := denyingClients.os }, .create⟩

theorem epoll_refines_denyingClients : ∃ w, EpollStep denyingStart w ∧
    w.epoll.notDeleted = [3, 4] ∧ ∀ fd ∈ w.epoll.notDeleted, w.loop.co.isOpen fd = false := by
  have hstep : EpollStep denyingStart (exec epollTurn denyingStart).2 :=
    ⟨rfl, exec_of_fst (by decide +kernel)⟩
  have hrefused : (exec epollTurn denyingStart).2.epoll.notDeleted = [3, 4] := by decide +kernel
  generalize (exec epollTurn denyingStart).2 = w at hstep hrefused
  obtain ⟨-, -, -, -, -, hgone⟩ := epoll_refines.1 denyingStart
    (EpollHead.first rfl rfl : EpollHead denyingClients denyingStart)
  obtain ⟨gone, hdeleted, hclosed⟩ := hgone w hstep
  refine ⟨w, hstep, hrefused, fun fd hfd => hclosed fd ?_⟩
  rw [hdeleted] at hfd
  exact hfd

end

end Flashflow
