import Flashflow.Loop.Passes

/-! Starting a measurement: the scheduler picks it, its clients are found and connected, and they
are told to authenticate. -/
namespace Flashflow
open Sched Program Arrays

variable {table : Msms} {s : Loop} {m : UInt32} {c : ℕ} {x : Meta}

/-- Descriptors that no client holds do not matter. -/
theorem Rest.leak {s : Coord} (h : Rest table m s) {fds : List ℕ} (hfds : s.openFds ⊆ fds) :
    Rest table m { s with openFds := fds } where
  coherent := ⟨h.coherent.clients, h.coherent.fds, fun x hx hp => hfds (h.coherent.opened x hx hp),
    h.coherent.plans, h.coherent.zero_over, h.coherent.strays, h.coherent.runs⟩
  nodup := h.nodup
  live := h.live
  known_iff := h.known_iff
  staffed i hi him := (h.staffed i hi him).frame rfl rfl fun _ hy _ => hy
  counted := ⟨h.counted.failures, h.counted.successes⟩

theorem le_foldl_max (l : List ℕ) (a : ℕ) : a ≤ l.foldl max a ∧ ∀ n ∈ l, n ≤ l.foldl max a := by
  induction l generalizing a with
  | nil => simp
  | cons b l ih =>
    obtain ⟨hle, hall⟩ := ih (max a b)
    refine ⟨(Nat.le_max_left a b).trans hle, fun n hn => ?_⟩
    rcases List.mem_cons.mp hn with rfl | hn
    · exact (Nat.le_max_right a n).trans hle
    · exact hall n hn

theorem freshFd_not_mem (fds : List ℕ) (n : ℕ) : freshFd fds n ∉ fds := by
  unfold freshFd
  split
  · intro hin
    have := (le_foldl_max fds 0).2 _ hin
    omega
  next hn => exact hn

/-- `tc_make_socket` on an idle client connects it to a new descriptor, or returns a negative
number and leaves at most an unused descriptor behind. -/
theorem wp_makeSocket {E : Abort → Loop → Prop} (hx : s.co.metas[c]? = some x)
    (hst : x.state = .invalid) :
    wp (makeSocket c) (fun ret t => ∃ fds, s.co.openFds ⊆ fds ∧
      ((ret < 0 ∧ t.co = { s.co with openFds := fds }) ∨
        ∃ n, 0 ≤ ret ∧ n ∉ fds ∧ t.co = { s.co with
          metas := s.co.metas.set c { x with fd := (n : ℕ), state := .connected },
          openFds := n :: fds })) E s := by
  rw [makeSocket, wp_bind]
  apply wp_answer
  intro a os
  simp only [wp_bind, wp_co, wp_metaAt, hx]
  generalize hsock : a.socket.map (freshFd s.co.openFds) = socket
  rcases @tcMakeSocket_spec socket a.resolved a.connected x hst with hfail | ⟨n, rfl, hok⟩
  · simp only [hfail, fromExcept_ok, wp_pure, wp_modifyCo, wp_bind, wp_setMeta, set_same hx]
    exact ⟨socket.toList ++ s.co.openFds, List.subset_append_right _ _, .inl ⟨by decide, rfl⟩⟩
  · simp only [hok, fromExcept_ok, wp_pure, wp_modifyCo, wp_bind, wp_setMeta]
    obtain ⟨k, -, hk⟩ := Option.map_eq_some_iff.mp hsock
    refine ⟨s.co.openFds, List.Subset.refl _, .inr ⟨n, by simp, ?_, by simp⟩⟩
    rw [← hk]
    exact freshFd_not_mem _ _

/-- `tc_next_available` finds an idle client of the class and connects it, or changes nothing but
unused descriptors. -/
theorem wp_nextAvailable {E : Abort → Loop → Prop} (h : Coherent table s.co) (cls : Bytes) :
    wp (nextAvailable cls) (fun r t => ∃ fds, s.co.openFds ⊆ fds ∧ match r with
      | none => t.co = { s.co with openFds := fds }
      | some c => ∃ x n, s.co.metas[c]? = some x ∧ x.cls = cls ∧ x.currentMId = 0 ∧ n ∉ fds ∧
        t.co = { s.co with
          metas := s.co.metas.set c { x with fd := (n : ℕ), state := .connected },
          openFds := n :: fds }) E s := by
  simp only [nextAvailable, wp_bind, wp_numMetas]
  refine wp_conseq (wp_forRange (fun _ _ t => ∃ fds, s.co.openFds ⊆ fds ∧
      t.co = { s.co with openFds := fds })
    (fun c t => ∃ fds, s.co.openFds ⊆ fds ∧
      ∃ x n, s.co.metas[c]? = some x ∧ x.cls = cls ∧ x.currentMId = 0 ∧ n ∉ fds ∧
        t.co = { s.co with
          metas := s.co.metas.set c { x with fd := (n : ℕ), state := .connected },
          openFds := n :: fds }) ?_ ⟨s.co.openFds, List.Subset.refl _, rfl⟩) ?_
  · rintro i hi ⟨⟩ t ⟨fds, hsub, ht⟩
    have hx : t.co.metas[i]? = some s.co.metas[i] := by
      rw [ht]
      exact List.getElem?_eq_getElem hi
    have hx₀ : s.co.metas[i]? = some s.co.metas[i] := List.getElem?_eq_getElem hi
    simp only [wp_bind, wp_metaAt, hx]
    by_cases hfree : s.co.metas[i].cls = cls ∧ s.co.metas[i].currentMId = 0
    · rw [if_pos hfree, wp_bind]
      have hinv := (h.idle (List.getElem_mem hi) hfree.2).2.1
      apply wp_conseq (wp_makeSocket hx hinv)
      rintro ret u ⟨fds', hsub', ⟨hneg, hu⟩ | ⟨n, hpos, hn, hu⟩⟩
      · rw [if_pos hneg, wp_pure]
        rw [ht] at hu hsub'
        exact ⟨fds', List.Subset.trans hsub hsub', hu⟩
      · rw [if_neg (by omega), wp_pure]
        rw [ht] at hu hsub'
        exact ⟨fds', List.Subset.trans hsub hsub', _, n, hx₀, hfree.1, hfree.2, hn, hu⟩
    · rw [if_neg hfree, wp_pure]
      exact ⟨fds, hsub, ht⟩
  · rintro (⟨⟩ | i) t ht
    · exact ht
    · exact ht

/-- One more client is claimed. -/
theorem Rest.claimed {s : Coord} (h : Rest table m s) {fds : List ℕ} (hsub : s.openFds ⊆ fds)
    (hx : s.metas[c]? = some x) (hcur : x.currentMId = 0) {n : ℕ} (hn : n ∉ fds)
    (hconn : ∀ y ∈ s.metas, y.currentMId = m → y.state = .connected) :
    Rest table m (Coord.claim { s with openFds := fds } c x n m) ∧
      (∀ y ∈ s.metas.set c (x.claimed n m), y.currentMId = m → y.state = .connected) ∧
      (classesOf (s.metas.set c (x.claimed n m)) m).Perm (classesOf s.metas m ++ [x.cls]) := by
  have hne : x.currentMId ≠ m := fun he => h.ne_zero (he.symm.trans hcur)
  refine ⟨(h.leak hsub).claim hx hcur hn hconn, fun y hy hym => ?_,
    classesOf_set_new hx (x.claimed n m) hne rfl rfl⟩
  rcases mem_set hy with hy | rfl
  · exact hconn y hy hym
  · rfl

/-- The state after the claim of the client that has been found. -/
theorem claimed_eq {s t : Coord} {c n : ℕ} {x : Meta} {fds : List ℕ} (m : UInt32)
    (ht : t = { s with metas := s.metas.set c { x with fd := (n : ℕ), state := .connected },
                       openFds := n :: fds }) :
    { t with metas := t.metas.set c (x.claimed n m), trace := t.trace ++ [.claimed c m] } =
      Coord.claim { s with openFds := fds } c x n m := by
  rw [ht]
  simp [Coord.claim]

/-- The clients are claimed one after the other; if all are found, their classes are those asked
for. -/
theorem wp_claimAll {E : Abort → Loop → Prop} (h : Rest table m s.co)
    (hconn : ∀ y ∈ s.co.metas, y.currentMId = m → y.state = .connected) (wanted : List Slot) :
    wp (claimAll m wanted) (fun ok t => Rest table m t.co ∧ t.co.known = s.co.known ∧
      t.co.msms = s.co.msms ∧ (∀ y ∈ t.co.metas, y.currentMId = m → y.state = .connected) ∧
      (ok = true → (classesOf t.co.metas m).Perm
        (classesOf s.co.metas m ++ wanted.map Slot.cls))) E s := by
  induction wanted generalizing s with
  | nil =>
    rw [claimAll, wp_pure]
    exact ⟨h, rfl, rfl, hconn, fun _ => by simp⟩
  | cons slot rest ih =>
    rw [claimAll, wp_bind]
    apply wp_conseq (wp_nextAvailable h.coherent slot.cls)
    rintro (_ | c) t ⟨fds, hsub, ht⟩
    · simp only [wp_pure, Bool.false_eq_true, false_implies, and_true]
      rw [ht]
      exact ⟨h.leak hsub, rfl, rfl, hconn⟩
    · obtain ⟨x, n, hx, hcls, hcur, hn, ht⟩ := ht
      obtain ⟨hlt, -⟩ := List.getElem?_eq_some_iff.mp hx
      have hget : t.co.metas[c]? = some { x with fd := (n : ℕ), state := .connected } := by
        rw [ht]
        simp [hlt]
      simp only [wp_bind, wp_metaAt, hget, wp_setMeta, wp_record]
      obtain ⟨hrest, hall, hnew⟩ := h.claimed hsub hx hcur hn hconn
      have hco := claimed_eq m ht
      have hset : t.co.metas.set c (x.claimed n m) = s.co.metas.set c (x.claimed n m) :=
        congrArg Coord.metas hco
      refine wp_conseq (ih ((congrArg (Rest table m) hco).mpr hrest) ?_) ?_
      · intro y hy
        exact hall y (hset ▸ hy)
      · rintro ok u ⟨hrest', hknown, hmsms, hconn', hcls'⟩
        refine ⟨hrest', hknown.trans (by rw [ht]), hmsms.trans (by rw [ht]), hconn', fun hok => ?_⟩
        apply (hcls' hok).trans
        rw [List.map_cons, ← hcls]
        have hstep := hnew.append_right (rest.map Slot.cls)
        rw [List.append_assoc, List.singleton_append, ← hset] at hstep
        exact hstep

/-- `find_and_connect_metas` for a measurement that has just started. -/
theorem wp_findAndConnectMetas (h : Rest table m s.co)
    (hnone : ∀ y ∈ s.co.metas, y.currentMId ≠ m) :
    wp (findAndConnectMetas m) (fun ok t => Rest table m t.co ∧ t.co.known = s.co.known ∧
      (ok = true → (∀ y ∈ t.co.metas, y.currentMId = m → y.state = .connected) ∧
        ∃ e, t.co.msms.get? m = some e ∧ Hired e (classesOf t.co.metas m))) (Aborted table) s := by
  obtain ⟨e, he, hst⟩ := Option.map_eq_some_iff.mp h.live
  simp only [findAndConnectMetas, fillParams, wp_bind, wp_co]
  cases hfill : fillMsmParams m s.co.msms with
  | error p =>
    obtain ⟨rfl, hnul⟩ := fillMsmParams_error he hfill
    simp only [Except.mapError, fromExcept_error, wp_abort]
    obtain ⟨e₀, he₀, hinc, hplan⟩ := h.coherent.loaded_incomplete he (by simp [hst])
    refine h.coherent.aborted ⟨e₀, he₀, hinc, fun hn => ?_⟩ (by rintro ⟨⟩)
    exact hnul (nulFree_of_plan hplan.symm hn)
  | ok r =>
    have hnul := fillMsmParams_nulFree he hfill
    rw [fillMsmParams_eq he hnul] at hfill
    obtain rfl := Except.ok.inj hfill
    simp only [Except.mapError, fromExcept_ok, wp_pure]
    by_cases hok : e.dur ≠ 0 ∧ e.hosts ≠ []
    · rw [if_neg (by simpa using hok)]
      apply wp_conseq (wp_claimAll h (fun y hy hym => absurd hym (hnone y hy)) _)
      rintro ok t ⟨hrest, hknown, hmsms, hconn, hcls⟩
      refine ⟨hrest, hknown, fun hok' => ⟨hconn, e, hmsms ▸ he, hnul, hok.1, hok.2, ?_⟩⟩
      have hempty : classesOf s.co.metas m = [] := by
        simpa [classesOf, List.filter_eq_nil_iff] using hnone
      have hperm := hcls hok'
      rw [hempty, List.nil_append] at hperm
      simpa [Measurement.params, Host.slot, Function.comp_def] using hperm
    · rw [if_pos (by simpa using hok), wp_pure]
      exact ⟨h, rfl, by simp⟩

/-- One turn of `send_auth_metas`. -/
theorem wp_authTurn {s₀ : Coord} {j : ℕ} (hj : j < s₀.metas.length)
    (h : Passing table m .auth s₀ j s.co) :
    wp (authTurn m j) (Turn.Post (fun _ t => Passing table m .auth s₀ (j + 1) t.co)
      (fun _ t => Rest table m t.co ∧ t.co.known = s₀.known)) (Aborted table) s := by
  have hlt : j < s.co.metas.length := h.length.symm ▸ hj
  have hx := List.getElem?_eq_getElem hlt
  simp only [authTurn, wp_bind, wp_metaAt, hx]
  by_cases hcur : s.co.metas[j].currentMId = m
  · rw [if_neg (by simpa using hcur), wp_bind]
    have hst : s.co.metas[j].state = .connected := by
      simpa [Phase.before] using h.states j _ hx hcur
    rw [wp_assertState hx hst, wp_bind]
    apply wp_conseq (h.wp_command sends_auth (fun _ => False.elim) hx hcur)
    rintro (_ | _) u hu
    · simpa using hu
    · exact hu.1
  · rw [if_pos hcur, wp_pure]
    exact h.skip hx hcur

/-- `send_auth_metas`: all clients of the measurement are waiting for the reply, or a command could
not be sent. -/
theorem wp_sendAuthMetas (h : Rest table m s.co)
    (hall : ∀ y ∈ s.co.metas, y.currentMId = m → y.state = .connected) :
    wp (sendAuthMetas m) (fun ok t => if ok then
        Passing table m .auth s.co s.co.metas.length t.co
      else Rest table m t.co ∧ t.co.known = s.co.known) (Aborted table) s := by
  simp only [sendAuthMetas, wp_bind, wp_numMetas]
  refine wp_conseq (wp_forRange (fun j _ t => Passing table m .auth s.co j t.co)
    (fun _ t => Rest table m t.co ∧ t.co.known = s.co.known)
    (fun j hj _ t ht => wp_authTurn hj ht) (Passing.start (p := .auth) h hall)) ?_
  rintro (⟨⟩ | ⟨⟩) t ht
  · exact ht
  · exact ht

theorem wp_schedNext {rank : UInt32 → ℕ} {now : EpochSecs} (h : Quiet table s.co)
    {Q : UInt32 → Loop → Prop} (h0 : Q 0 s)
    (hQ : ∀ m msms, m ≠ 0 → Moves s.co.msms msms m .waiting .inProgress →
      Q m { s with co := { s.co with msms := msms } }) :
    wp (schedCall (schedNext rank now)) Q (Aborted table) s := by
  refine wp_schedCall (fun m msms hok => ?_) fun p herr => ?_
  · by_cases hm : m = 0
    · subst hm
      rcases schedNext_ok hok with ⟨-, rfl, -⟩ | ⟨e, stop, hget, hready, -, -⟩
      · exact h0
      · have hw : statusOf s.co.msms 0 = .waiting := by
          simp only [Measurement.ready, decide_eq_true_eq] at hready
          simp [statusOf, Msms.stateOf, hget, hready.1, State.stage]
        rw [h.coherent.status_zero] at hw
        cases hw
    · exact hQ m msms hm (schedNext_moves hok hm)
  · obtain ⟨rfl, e, he, hready, hdur⟩ := schedNext_error herr
    have hget := Msms.get?_eq_some_iff.mpr ⟨he, rfl⟩
    have hw : e.state = .waiting := by
      simp only [Measurement.ready, decide_eq_true_eq] at hready
      exact hready.1
    obtain ⟨e₀, he₀, hinc, hplan⟩ := h.coherent.loaded_incomplete hget (by simp [hw])
    exact h.coherent.aborted ⟨e₀, he₀, hinc, dur_of_plan hplan ▸ hdur⟩ (by rintro ⟨⟩)

/-- The measurement enters the list of known ones. -/
theorem Rest.enter {s : Coord} (h : Rest table m s) (hm : m ∉ s.known) :
    Rest table m { s with known := s.known ++ [m] } where
  coherent := ⟨h.coherent.clients, h.coherent.fds, h.coherent.opened, h.coherent.plans,
    h.coherent.zero_over, h.coherent.strays, h.coherent.runs⟩
  nodup := by
    have hnd := List.Nodup.concat hm h.nodup
    rwa [List.concat_eq_append] at hnd
  live := h.live
  known_iff i hi := by simpa [hi] using h.known_iff i hi
  staffed i hi him := by
    have hi' : i ∈ s.known := by simpa [him] using hi
    exact (h.staffed i hi' him).frame rfl rfl fun _ hy _ => hy
  counted := ⟨h.counted.failures, h.counted.successes⟩

/-- Starting a measurement leaves everything in order. -/
theorem wp_startNew (h : Quiet table s.co) :
    wp startNew (fun _ t => Quiet table t.co) (Aborted table) s := by
  rw [startNew, wp_bind]
  apply wp_answer
  intro a os
  rw [wp_bind]
  refine wp_schedNext (s := { s with os := os }) h ?_ fun m msms hm hmv => ?_
  · rw [if_neg (by decide), wp_pure]
    exact h
  have hpos : m > 0 := UInt32.pos_iff_ne_zero.mpr hm
  obtain ⟨hnew, hnone⟩ := h.fresh hm hmv
  rw [if_pos hpos, wp_bind, wp_record, wp_bind]
  refine wp_conseq (wp_findAndConnectMetas (h.start hmv) hnone) ?_
  rintro (_ | _) t ⟨hrest, hknown, hok⟩
  · simp only [Bool.false_eq_true, not_false_eq_true, ↓reduceIte, wp_bind]
    apply wp_conseq (wp_measurementFailed hrest)
    rintro _ u ⟨hu, -⟩
    exact hu
  · obtain ⟨hconn, e, he, hired⟩ := hok rfl
    simp only [not_true_eq_false, ↓reduceIte, wp_bind, wp_modifyCo]
    have hadd : Rest table m { t.co with known := t.co.known ++ [m] } := by
      apply hrest.enter
      rw [hknown]
      exact hnew
    apply wp_conseq (wp_sendAuthMetas (by exact hadd) (by exact hconn))
    rintro (_ | _) u hu
    · simp only [Bool.false_eq_true, not_false_eq_true, ↓reduceIte, wp_bind] at hu ⊢
      apply wp_conseq (wp_measurementFailed hu.1)
      rintro _ v ⟨hv, -⟩
      exact hv
    · simp only [not_true_eq_false, ↓reduceIte, wp_pure] at hu ⊢
      exact (hu.finish (by simp) he hired).1

end Flashflow
