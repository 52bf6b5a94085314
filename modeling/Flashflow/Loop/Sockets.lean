import Flashflow.Loop.Allocate

/-! The descriptors that are open, over any sequence of calls of the client functions. A descriptor
is lost if it is open and no client holds it. -/
namespace Flashflow
open Sched Program Arrays Allocation Outcome

/-- A call of a client function on `&metas[c]`, and the claim of a client by
`find_and_connect_metas`. -/
inductive ClientCall where
  | makeSocket (c : ℕ)
  | nextAvailable (cls : Bytes)
  | finishedWithMeta (c : ℕ)
  | claim (c : ℕ) (m : UInt32)
  | authSocket (c : ℕ)
  | authedSocket (c : ℕ)
  | tellConnect (fp : Bytes) (conns : UInt32) (c : ℕ)
  | connectedSocket (c : ℕ)
  | setBwRate (bw : UInt32) (c : ℕ)
  | didSetBwRate (c : ℕ)
  | startMeasurement (dur : UInt32) (c : ℕ)
  | outputResult (p : MsmParams) (c : ℕ)
  | markFailed (c : ℕ)

def runCall : ClientCall → LoopM Unit
  | .makeSocket c => do
    let _ ← makeSocket c
    pure ()
  | .nextAvailable cls => do
    let _ ← nextAvailable cls
    pure ()
  | .finishedWithMeta c => finishedWithMeta c
  | .claim c m => do
    let x ← metaAt c
    setMeta c { x with currentMId := m }
  | .authSocket c => do
    let _ ← authSocket c
    pure ()
  | .authedSocket c => do
    let _ ← authedSocket c
    pure ()
  | .tellConnect fp conns c => do
    let _ ← tellConnect fp conns c
    pure ()
  | .connectedSocket c => do
    let _ ← connectedSocket c
    pure ()
  | .setBwRate bw c => do
    let _ ← setBwRate bw c
    pure ()
  | .didSetBwRate c => do
    let _ ← didSetBwRate c
    pure ()
  | .startMeasurement dur c => do
    let _ ← startMeasurement dur c
    pure ()
  | .outputResult p c => do
    let _ ← outputResult p c
    pure ()
  | .markFailed c => markFailed c

def runCalls : List ClientCall → LoopM Unit
  | [] => pure ()
  | call :: calls => do
    runCall call
    runCalls calls

/-- `socket` succeeds, and then the name is not resolved or the connection not made. -/
def Answer.leaks (a : Answer) : Bool := a.socket.isSome && !(a.resolved && a.connected)

/-- The next `n` answers. -/
def Os.answers (os : Os) (n : ℕ) : List Answer :=
  (List.range n).map fun k => os.script (os.tick + k)

/-- The answers to the connection attempts of a call: `tc_next_available` tries the idle clients
of the class until one accepts. -/
def ClientCall.attempts (s : Loop) : ClientCall → List Answer
  | .makeSocket _ => s.os.answers 1
  | .nextAvailable cls =>
    tried Answer.accepts (s.os.answers (idleClients s.co.metas cls).length)
  | _ => []

/-- The open descriptors are the ones that the clients hold. -/
def Coord.Accounted (s : Coord) : Prop :=
  ∀ n : ℕ, n ∈ s.openFds ↔ ∃ x ∈ s.metas, x.fd = n

/-- The open descriptors that no client holds. -/
def Coord.lost (s : Coord) : List ℕ :=
  s.openFds.filter fun n => s.metas.all fun x => x.fd ≠ n

/-- Every client outside `csm_st_invalid` holds an open descriptor of its own, and no other does. -/
structure Held (s : Coord) : Prop where
  clients : ∀ x ∈ s.metas, x.state = .invalid ∧ x.fd = -1 ∨ x.state ≠ .invalid ∧ 0 ≤ x.fd
  fds : ∀ (i j : ℕ) (x y : Meta), s.metas[i]? = some x → s.metas[j]? = some y → x.fd = y.fd →
    0 ≤ x.fd → i = j
  opened : ∀ x ∈ s.metas, 0 ≤ x.fd → x.fd.toNat ∈ s.openFds

section State
variable {s t : Coord} {c : ℕ} {x : Meta} {n : ℕ}

theorem mem_lost : n ∈ s.lost ↔ n ∈ s.openFds ∧ ∀ x ∈ s.metas, x.fd ≠ n := by
  simp [Coord.lost]

theorem Held.accounted_iff (h : Held s) : s.Accounted ↔ s.lost = [] := by
  rw [List.eq_nil_iff_forall_not_mem]
  apply forall_congr'
  intro n
  simp only [mem_lost, not_and, not_forall, not_not, exists_prop]
  refine ⟨fun hiff => hiff.mp, fun himp => ⟨himp, ?_⟩⟩
  rintro ⟨x, hx, hfd⟩
  have hmem := h.opened x hx (by omega)
  rwa [hfd, Int.toNat_natCast] at hmem

theorem Held.fd_invalid (h : Held s) (hx : x ∈ s.metas) (hst : x.state = .invalid) : x.fd = -1 :=
  (h.clients x hx).elim And.right fun hw => absurd hst hw.1

theorem Held.fd_nonneg (h : Held s) (hx : x ∈ s.metas) (hst : x.state ≠ .invalid) : 0 ≤ x.fd :=
  (h.clients x hx).elim (fun hi => absurd hi.1 hst) And.right

theorem Held.fd_ne_fresh (h : Held s) (hx : x ∈ s.metas) (hn : n ∉ s.openFds) : x.fd ≠ n := by
  intro hfd
  have hmem := h.opened x hx (by omega)
  rw [hfd, Int.toNat_natCast] at hmem
  exact hn hmem

/-- A client is replaced by one with the same descriptor. -/
theorem Held.replace (h : Held s) (hx : s.metas[c]? = some x) {y : Meta} (hfd : y.fd = x.fd)
    (hst : y.state = .invalid ↔ x.state = .invalid) :
    Held { s with metas := s.metas.set c y } ∧
      ({ s with metas := s.metas.set c y } : Coord).lost = s.lost := by
  have hmem := List.mem_of_getElem? hx
  have hfds : (s.metas.set c y).map Meta.fd = s.metas.map Meta.fd := map_set_same Meta.fd hx hfd
  refine ⟨⟨fun z hz => ?_, fun i j z w hz hw heq hpos => ?_, fun z hz hpos => ?_⟩, ?_⟩
  · rcases mem_set hz with hz | rfl
    · exact h.clients z hz
    · rw [hfd, hst, Ne, hst]
      exact h.clients x hmem
  · have hget : ∀ {k : ℕ} {v : Meta}, (s.metas.set c y)[k]? = some v →
        ∃ v', s.metas[k]? = some v' ∧ v'.fd = v.fd := by
      intro k v hv
      rcases of_getElem?_set hv with ⟨rfl, rfl⟩ | ⟨-, hv⟩
      · exact ⟨x, hx, hfd.symm⟩
      · exact ⟨v, hv, rfl⟩
    obtain ⟨z', hz', hzfd⟩ := hget hz
    obtain ⟨w', hw', hwfd⟩ := hget hw
    exact h.fds i j z' w' hz' hw' (by rw [hzfd, hwfd, heq]) (hzfd ▸ hpos)
  · rcases mem_set hz with hz | rfl
    · exact h.opened z hz hpos
    · rw [hfd] at hpos ⊢
      exact h.opened x hmem hpos
  · apply List.filter_congr
    intro n _
    have hall : ∀ l : List Meta, (l.all fun x => x.fd ≠ n) = (l.map Meta.fd).all fun fd => fd ≠ n :=
      fun l => by rw [List.all_map]; rfl
    rw [hall, hfds, ← hall]

/-- An idle client gets a descriptor that was not open. -/
theorem Held.connect (h : Held s) (hx : s.metas[c]? = some x) (hst : x.state = .invalid)
    (hn : n ∉ s.openFds) :
    Held { s with
      metas := s.metas.set c { x with fd := n, state := .connected }, openFds := n :: s.openFds } ∧
    ({ s with metas := s.metas.set c { x with fd := n, state := .connected },
              openFds := n :: s.openFds } : Coord).lost = s.lost := by
  have hold := h.fd_invalid (List.mem_of_getElem? hx) hst
  have hne : ∀ y ∈ s.metas, y.fd ≠ n := fun y hy => h.fd_ne_fresh hy hn
  refine ⟨⟨fun z hz => ?_, fun i j z w hz hw heq hpos => ?_, fun z hz hpos => ?_⟩, ?_⟩
  · rcases mem_set hz with hz | rfl
    · exact h.clients z hz
    · exact .inr ⟨by simp, Int.natCast_nonneg n⟩
  · rcases of_getElem?_set hz with ⟨rfl, rfl⟩ | ⟨-, hz'⟩ <;>
      rcases of_getElem?_set hw with ⟨rfl, rfl⟩ | ⟨-, hw'⟩
    · rfl
    · exact absurd heq.symm (hne w (List.mem_of_getElem? hw'))
    · exact absurd heq (hne z (List.mem_of_getElem? hz'))
    · exact h.fds i j z w hz' hw' heq hpos
  · rcases mem_set hz with hz | rfl
    · exact List.mem_cons_of_mem _ (h.opened z hz hpos)
    · simp
  · obtain ⟨pre, post, hmetas, -, hset⟩ := split_at hx
    rw [Coord.lost, List.filter_cons_of_neg]
    · apply List.filter_congr
      intro k hk
      have hkn : (n : Int) ≠ k := fun heq => hn (by rwa [Int.ofNat_inj.mp heq])
      have hkx : x.fd ≠ k := by omega
      rw [hset, hmetas]
      simp [hkn, hkx]
    · obtain ⟨hlt, -⟩ := List.getElem?_eq_some_iff.mp hx
      simp only [Bool.not_eq_true, List.all_eq_false, decide_eq_true_eq, not_not]
      exact ⟨_, List.mem_set hlt _, rfl⟩

/-- A descriptor is opened for nobody. -/
theorem Held.leak (h : Held s) (hn : n ∉ s.openFds) :
    Held { s with openFds := n :: s.openFds } ∧
      ({ s with openFds := n :: s.openFds } : Coord).lost = n :: s.lost := by
  refine ⟨⟨h.clients, h.fds, fun x hx hpos => List.mem_cons_of_mem _ (h.opened x hx hpos)⟩, ?_⟩
  rw [Coord.lost, List.filter_cons_of_pos]
  · rfl
  · simpa using fun x hx => h.fd_ne_fresh hx hn

/-- A client's descriptor is closed. -/
theorem Held.close (h : Held s) (hx : s.metas[c]? = some x) :
    Held { s with metas := s.metas.set c x.idle,
                  openFds := s.openFds.filter fun n => (n : Int) ≠ x.fd } ∧
    ({ s with metas := s.metas.set c x.idle,
              openFds := s.openFds.filter fun n => (n : Int) ≠ x.fd } : Coord).lost = s.lost := by
  refine ⟨⟨fun z hz => ?_, fun i j z w hz hw heq hpos => ?_, fun z hz hpos => ?_⟩, ?_⟩
  · rcases mem_set hz with hz | rfl
    · exact h.clients z hz
    · exact .inl ⟨rfl, rfl⟩
  · rcases of_getElem?_set hz with ⟨rfl, rfl⟩ | ⟨-, hz'⟩ <;>
      rcases of_getElem?_set hw with ⟨rfl, rfl⟩ | ⟨-, hw'⟩
    · rfl
    · exact absurd hpos (by simp [Meta.idle])
    · rw [heq] at hpos
      exact absurd hpos (by simp [Meta.idle])
    · exact h.fds i j z w hz' hw' heq hpos
  · obtain ⟨i, hi⟩ := List.mem_iff_getElem?.mp hz
    rcases of_getElem?_set hi with ⟨rfl, rfl⟩ | ⟨hic, hi⟩
    · exact absurd hpos (by simp [Meta.idle])
    · refine List.mem_filter.mpr ⟨h.opened z (List.mem_of_getElem? hi) hpos, ?_⟩
      simp only [decide_eq_true_eq]
      exact fun heq => hic (h.fds i c z x hi hx (by omega) hpos)
  · obtain ⟨pre, post, hmetas, -, hset⟩ := split_at hx
    rw [Coord.lost, Coord.lost, List.filter_filter]
    apply List.filter_congr
    intro k _
    have hk : (-1 : Int) ≠ k := by omega
    rw [hset, hmetas]
    by_cases hkx : x.fd = k
    · simp [hkx, Meta.idle]
    · simp [hkx, Ne.symm hkx, hk, Meta.idle]

end State

/-! The calls. -/

section Calls
variable {s t : Loop} {c : ℕ} {x : Meta} {cls : Bytes}

/-- What `tc_make_socket` does with the answer `a`. -/
structure Made (a : Answer) (s : Loop) (ret : Int) (t : Loop) : Prop where
  os : t.os = s.os.after 1
  held : Held t.co
  before : s.co.lost <:+ t.co.lost
  lost : t.co.lost.length = s.co.lost.length + if a.leaks then 1 else 0
  accepted : 0 ≤ ret ↔ a.accepts = true
  metas : ret < 0 → t.co.metas = s.co.metas
  same : ret < 0 → a.leaks = false → t.co = s.co

theorem wp_makeSocket_made (h : Held s.co) (c : ℕ) :
    wp (makeSocket c) (Made (s.os.script s.os.tick) s) (fun _ _ => True) s := by
  simp only [makeSocket, answer, wp_bind, wp_getState, wp_modifyState, wp_pure, wp_co, wp_metaAt]
  generalize s.os.script s.os.tick = a
  cases hx : s.co.metas[c]? with
  | none => trivial
  | some x =>
    simp only
    cases hr : tcMakeSocket (a.socket.map (freshFd s.co.openFds)) a.resolved a.connected x with
    | error e => trivial
    | ok r =>
      obtain ⟨ret, y⟩ := r
      simp only [fromExcept_ok, wp_pure, wp_modifyCo, wp_setMeta, wp_bind]
      obtain ⟨hst, ⟨hno, rfl, rfl⟩ | ⟨n, hn, hres, hcon, rfl, rfl⟩⟩ := tcMakeSocket_ok hr
      · rw [Option.isSome_map] at hno
        rw [set_same hx]
        have hacc : a.accepts = false := hno
        cases hsock : a.socket with
        | none =>
          have hleaks : a.leaks = false := by simp [Answer.leaks, hsock]
          exact ⟨rfl, h, List.suffix_refl _, by simp [hleaks], by simp [hacc], fun _ => rfl,
            fun _ _ => rfl⟩
        | some n =>
          rw [hsock, Option.isSome_some, Bool.true_and] at hno
          have hleaks : a.leaks = true := by rw [Answer.leaks, hsock, hno]; rfl
          obtain ⟨hheld, hlost⟩ := h.leak (freshFd_not_mem s.co.openFds n)
          refine ⟨rfl, hheld, hlost ▸ List.suffix_cons _ _, ?_, by simp [hacc], fun _ => rfl,
            fun _ hnot => ?_⟩
          · rw [if_pos hleaks]
            exact congrArg List.length hlost
          · rw [hleaks] at hnot
            cases hnot
      · obtain ⟨k, hk, rfl⟩ := Option.map_eq_some_iff.mp hn
        have hacc : a.accepts = true := by simp [Answer.accepts, hk, hres, hcon]
        have hleaks : a.leaks = false := by simp [Answer.leaks, hres, hcon]
        obtain ⟨hheld, hlost⟩ := h.connect hx hst (freshFd_not_mem s.co.openFds k)
        rw [hk]
        refine ⟨rfl, hheld, hlost ▸ List.suffix_refl _, ?_, by simp [hacc], fun hneg => ?_,
          fun hneg => ?_⟩
        · simp only [hleaks, Bool.false_eq_true, ↓reduceIte, Nat.add_zero]
          exact congrArg List.length hlost
        · omega
        · omega

/-- The idle clients of the class in front of index `i` have been tried, and all have refused. -/
structure Missed (cls : Bytes) (s : Loop) (i : ℕ) (t : Loop) : Prop where
  os : t.os = s.os.after (idleAmong s.co.metas cls i).length
  refused : ∀ a ∈ s.os.answers (idleAmong s.co.metas cls i).length, a.accepts = false
  held : Held t.co
  metas : t.co.metas = s.co.metas
  before : s.co.lost <:+ t.co.lost
  lost : t.co.lost.length = s.co.lost.length +
    (s.os.answers (idleAmong s.co.metas cls i).length).countP Answer.leaks
  same : (∀ a ∈ s.os.answers (idleAmong s.co.metas cls i).length, a.leaks = false) → t.co = s.co

theorem Os.answers_succ (os : Os) (n : ℕ) :
    os.answers (n + 1) = os.answers n ++ [(os.after n).script (os.after n).tick] := by
  rw [Os.answers, Os.answers, List.range_succ, List.map_append]
  rfl

theorem length_answers (os : Os) (n : ℕ) : (os.answers n).length = n := by
  rw [Os.answers, List.length_map, List.length_range]

theorem Missed.skip {i : ℕ} (h : Missed cls s i t) (hx : s.co.metas[i]? = some x)
    (hbusy : ¬ (x.cls = cls ∧ x.currentMId = 0)) : Missed cls s (i + 1) t := by
  have hsucc := idleAmong_succ hx cls
  rw [if_neg hbusy, List.append_nil] at hsucc
  obtain ⟨hos, hrefused, hheld, hmetas, hbefore, hlost, hsame⟩ := h
  rw [← hsucc] at hos hrefused hlost hsame
  exact ⟨hos, hrefused, hheld, hmetas, hbefore, hlost, hsame⟩

theorem length_idleAmong_succ {i : ℕ} {metas : List Meta} (hx : metas[i]? = some x)
    (hfree : x.cls = cls ∧ x.currentMId = 0) :
    (idleAmong metas cls (i + 1)).length = (idleAmong metas cls i).length + 1 := by
  rw [idleAmong_succ hx cls, if_pos hfree, List.length_append, List.length_singleton]

theorem Missed.next {i : ℕ} {u : Loop} {ret : Int} (h : Missed cls s i t)
    (hx : s.co.metas[i]? = some x) (hfree : x.cls = cls ∧ x.currentMId = 0)
    (hmade : Made (t.os.script t.os.tick) t ret u) (hneg : ret < 0) : Missed cls s (i + 1) u := by
  have hsucc := length_idleAmong_succ hx hfree
  have hacc : (t.os.script t.os.tick).accepts = false := by
    rw [← Bool.not_eq_true, ← hmade.accepted]
    omega
  refine ⟨?_, ?_, hmade.held, (hmade.metas hneg).trans h.metas, h.before.trans hmade.before, ?_,
    fun hall => ?_⟩
  · rw [hmade.os, h.os, hsucc]
    rfl
  · rw [hsucc, Os.answers_succ, ← h.os]
    simp only [List.mem_append, List.mem_singleton]
    rintro a (ha | rfl)
    · exact h.refused a ha
    · exact hacc
  · rw [hsucc, Os.answers_succ, ← h.os, List.countP_append, List.countP_singleton, hmade.lost,
      h.lost, Nat.add_assoc]
  · rw [hsucc, Os.answers_succ, ← h.os] at hall
    rw [hmade.same hneg (hall _ (by simp)), h.same fun a ha => hall a (by simp [ha])]

/-- The answers up to the one that is accepted. -/
theorem Missed.attempts {i : ℕ} (h : Missed cls s i t) (hx : s.co.metas[i]? = some x)
    (hfree : x.cls = cls ∧ x.currentMId = 0) (hacc : (t.os.script t.os.tick).accepts = true) :
    (ClientCall.nextAvailable cls).attempts s =
      s.os.answers (idleAmong s.co.metas cls i).length ++ [t.os.script t.os.tick] := by
  obtain ⟨hlt, -⟩ := List.getElem?_eq_some_iff.mp hx
  obtain ⟨rest, hrest⟩ := idleAmong_prefix (Nat.succ_le_of_lt hlt) cls
  have hlen := congrArg List.length hrest
  rw [List.length_append, length_idleAmong_succ hx hfree] at hlen
  have hanswers : ∀ k, ∃ more, s.os.answers ((idleAmong s.co.metas cls i).length + 1 + k) =
      s.os.answers (idleAmong s.co.metas cls i).length ++ t.os.script t.os.tick :: more := by
    intro k
    refine ⟨(List.range k).map fun j => s.os.script
      (s.os.tick + ((idleAmong s.co.metas cls i).length + 1 + j)), ?_⟩
    rw [Os.answers, List.range_add, List.map_append, ← Os.answers, Os.answers_succ, ← h.os,
      List.append_assoc, List.singleton_append, List.map_map]
    rfl
  obtain ⟨more, hmore⟩ := hanswers rest.length
  rw [ClientCall.attempts, ← hlen, hmore, tried_append h.refused, tried, if_pos hacc]

/-- What `tc_next_available` does. -/
structure Sought (cls : Bytes) (s : Loop) (r : Option ℕ) (t : Loop) : Prop where
  os : t.os = s.os.after ((ClientCall.nextAvailable cls).attempts s).length
  held : Held t.co
  before : s.co.lost <:+ t.co.lost
  lost : t.co.lost.length =
    s.co.lost.length + ((ClientCall.nextAvailable cls).attempts s).countP Answer.leaks
  same : r = none → (∀ a ∈ (ClientCall.nextAvailable cls).attempts s, a.leaks = false) →
    t.co = s.co

theorem wp_nextAvailable_sought (h : Held s.co) (cls : Bytes) :
    wp (nextAvailable cls) (Sought cls s) (fun _ _ => True) s := by
  simp only [nextAvailable, wp_bind, wp_numMetas]
  refine wp_conseq (wp_forRange (fun i _ t => Missed cls s i t)
    (fun c t => Sought cls s (some c) t) ?_
    ⟨by simp [idleAmong, Os.after], by simp [idleAmong, Os.answers], h, rfl, List.suffix_refl _,
      by simp [idleAmong, Os.answers], fun _ => rfl⟩) ?_
  · rintro i hi ⟨⟩ t hmiss
    have hx₀ : s.co.metas[i]? = some s.co.metas[i] := List.getElem?_eq_getElem hi
    have hx : t.co.metas[i]? = some s.co.metas[i] := by rw [hmiss.metas, hx₀]
    simp only [wp_bind, wp_metaAt, hx]
    by_cases hfree : s.co.metas[i].cls = cls ∧ s.co.metas[i].currentMId = 0
    · rw [if_pos hfree, wp_bind]
      apply wp_conseq (wp_makeSocket_made hmiss.held i)
      intro ret u hmade
      by_cases hneg : ret < 0
      · rw [if_pos hneg, wp_pure]
        exact hmiss.next hx₀ hfree hmade hneg
      · rw [if_neg hneg, wp_pure]
        have hacc := hmade.accepted.mp (by omega)
        have hattempts := hmiss.attempts hx₀ hfree hacc
        refine ⟨?_, hmade.held, hmiss.before.trans hmade.before, ?_, fun hnone => ?_⟩
        · rw [hattempts, hmade.os, hmiss.os, List.length_append, length_answers]
          rfl
        · rw [hattempts, List.countP_append, List.countP_singleton, hmade.lost, hmiss.lost,
            Nat.add_assoc]
        · cases hnone
    · rw [if_neg hfree, wp_pure]
      exact hmiss.skip hx₀ hfree
  · rintro (⟨⟩ | c) t ht
    · have hall : (ClientCall.nextAvailable cls).attempts s =
          s.os.answers (idleAmong s.co.metas cls s.co.metas.length).length := by
        have happend := tried_append ht.refused []
        rw [List.append_nil, tried, List.append_nil] at happend
        exact happend
      refine ⟨by rw [hall, length_answers, ht.os], ht.held, ht.before, by rw [hall, ht.lost],
        fun _ hleaks => ?_⟩
      rw [hall] at hleaks
      exact ht.same hleaks
    · exact ht

/-- Nothing is opened or closed for nobody. -/
def Kept (s t : Loop) : Prop := Held t.co ∧ t.co.lost = s.co.lost

theorem Kept.congr {u : Loop} (h : Kept s t) (hmetas : u.co.metas = t.co.metas)
    (hfds : u.co.openFds = t.co.openFds) : Kept s u := by
  obtain ⟨⟨hclients, hdistinct, hopened⟩, hlost⟩ := h
  refine ⟨⟨hmetas ▸ hclients, hmetas ▸ hdistinct, ?_⟩, ?_⟩
  · rw [hmetas, hfds]
    exact hopened
  · rw [← hlost, Coord.lost, Coord.lost, hmetas, hfds]

theorem Held.kept_replace (h : Held s.co) (hx : s.co.metas[c]? = some x) {y : Meta}
    (hfd : y.fd = x.fd) (hst : y.state = .invalid ↔ x.state = .invalid) :
    Kept s { s with co := { s.co with metas := s.co.metas.set c y } } := h.replace hx hfd hst

/-- A step of the state machine other than the first and the last one. -/
theorem Held.kept_moves (h : Held s.co) (hx : s.co.metas[c]? = some x) {y : Meta} {st : CsmState}
    (hmoves : MovesTo st x y) (hinv : st ≠ .invalid) (hcon : st ≠ .connected) :
    Kept s { s with co := { s.co with metas := s.co.metas.set c y } } := by
  obtain rfl | ⟨hallow, rfl⟩ := hmoves
  · exact h.kept_replace hx rfl Iff.rfl
  · refine h.kept_replace hx rfl (iff_of_false hinv fun hst => hcon ?_)
    rw [hst] at hallow
    cases st <;> first | rfl | cases hallow

theorem wp_command_kept (h : Held s.co) {p : Phase}
    {f : Option ℕ → Meta → Except Abort (Bool × Bytes × Meta)}
    (hf : ∀ {sent x ok msg y}, f sent x = .ok (ok, msg, y) → MovesTo p.waits x y) (c : ℕ) :
    wp (command p f c) (fun _ => Kept s) (fun _ _ => True) s := by
  rw [command, wp_bind]
  apply wp_answer
  intro a os
  simp only [wp_bind, wp_metaAt]
  cases hx : s.co.metas[c]? with
  | none => trivial
  | some x =>
    simp only
    cases hr : f a.sent x with
    | error e => trivial
    | ok r =>
      obtain ⟨ok, msg, y⟩ := r
      have hkept : Kept s _ :=
        h.kept_moves hx (hf hr) (by cases p <;> decide) (by cases p <;> decide)
      simp only [fromExcept_ok, wp_pure, wp_bind, wp_setMeta]
      cases ok with
      | false => exact hkept.congr rfl rfl
      | true => exact hkept.congr rfl rfl

theorem wp_reply_kept (h : Held s.co) {p : Phase}
    {f : Option Bytes → (ℕ → UInt8) → Meta → Except Abort (Bool × Meta)}
    (hf : ∀ {recv stale x ok y}, f recv stale x = .ok (ok, y) → MovesTo p.reached x y) (c : ℕ) :
    wp (reply p f c) (fun _ => Kept s) (fun _ _ => True) s := by
  rw [reply, wp_bind]
  apply wp_answer
  intro a os
  simp only [wp_bind, wp_metaAt]
  cases hx : s.co.metas[c]? with
  | none => trivial
  | some x =>
    simp only
    cases hr : f (a.recv.map (·.take readBufLen)) a.stale x with
    | error e => trivial
    | ok r =>
      obtain ⟨ok, y⟩ := r
      have hkept : Kept s _ :=
        h.kept_moves hx (hf hr) (by cases p <;> decide) (by cases p <;> decide)
      simp only [fromExcept_ok, wp_pure, wp_bind, wp_setMeta]
      cases ok with
      | false => exact hkept.congr rfl rfl
      | true => exact hkept.congr rfl rfl

theorem wp_outputResult_kept (h : Held s.co) (p : MsmParams) (c : ℕ) :
    wp (outputResult p c) (fun _ => Kept s) (fun _ _ => True) s := by
  rw [outputResult, wp_bind]
  apply wp_answer
  intro a os
  simp only [wp_bind, wp_metaAt]
  cases hx : s.co.metas[c]? with
  | none => trivial
  | some x =>
    simp only
    cases hr : tcOutputResult p.id p.fp a.time (a.recv.map (·.take readBufLen)) x with
    | error e => trivial
    | ok r =>
      obtain ⟨ok, lines, y⟩ := r
      have hkept : Kept s _ := h.kept_moves hx (tcOutputResult_moves hr) (by decide) (by decide)
      simp only [fromExcept_ok, wp_pure, wp_bind, wp_setMeta, wp_modifyState, wp_ite]
      exact ⟨fun _ => hkept.congr rfl rfl, fun _ => hkept.congr rfl rfl⟩

theorem wp_markFailed_kept (h : Held s.co) (c : ℕ) :
    wp (markFailed c) (fun _ => Kept s) (fun _ _ => True) s := by
  simp only [markFailed, wp_bind, wp_metaAt]
  cases hx : s.co.metas[c]? with
  | none => trivial
  | some x =>
    simp only
    cases hr : tcMarkFailed x with
    | error e => trivial
    | ok y =>
      simp only [fromExcept_ok, wp_pure, wp_setMeta]
      exact h.kept_moves hx (tcChangeState_moves hr) (by decide) (by decide)

theorem wp_finishedWithMeta_kept (h : Held s.co) (c : ℕ) :
    wp (finishedWithMeta c) (fun _ => Kept s) (fun _ _ => True) s := by
  cases hx : s.co.metas[c]? with
  | none => simp only [finishedWithMeta, wp_bind, wp_metaAt, hx]
  | some x =>
    by_cases hallow : x.state.allows .invalid = true
    · have hst : x.state ≠ .invalid := fun hst => by rw [hst] at hallow; cases hallow
      rw [wp_finishedWithMeta hx hallow (h.fd_nonneg (List.mem_of_getElem? hx) hst)]
      exact h.close hx
    · simp only [finishedWithMeta, wp_bind, wp_metaAt, hx, tcFinishedWithMeta, tcChangeState,
        failIf, if_pos hallow]
      trivial

/-- One call loses the descriptors of the attempts that leak. -/
theorem wp_runCall (h : Held s.co) (call : ClientCall) :
    wp (runCall call) (fun _ t => Held t.co ∧ t.co.lost.length =
      s.co.lost.length + (call.attempts s).countP Answer.leaks) (fun _ _ => True) s := by
  have hkept : ∀ t, Kept s t → Held t.co ∧ t.co.lost.length = s.co.lost.length + 0 :=
    fun t ht => ⟨ht.1, congrArg List.length ht.2⟩
  cases call with
  | makeSocket c =>
    refine (wp_bind _ _).mpr (wp_conseq (wp_makeSocket_made h c) fun ret t hmade => ?_)
    have hone : (ClientCall.makeSocket c).attempts s = [s.os.script s.os.tick] := rfl
    rw [hone, List.countP_singleton]
    exact ⟨hmade.held, hmade.lost⟩
  | nextAvailable cls =>
    refine (wp_bind _ _).mpr (wp_conseq (wp_nextAvailable_sought h cls) fun r t hsought => ?_)
    exact ⟨hsought.held, hsought.lost⟩
  | finishedWithMeta c => exact wp_conseq (wp_finishedWithMeta_kept h c) fun _ => hkept
  | claim c m =>
    simp only [runCall, wp_bind, wp_metaAt]
    cases hx : s.co.metas[c]? with
    | none => trivial
    | some x => exact hkept _ (h.kept_replace hx rfl Iff.rfl)
  | authSocket c =>
    exact (wp_bind _ _).mpr (wp_conseq (wp_command_kept h tcAuthSocket_moves c) fun _ => hkept)
  | authedSocket c =>
    exact (wp_bind _ _).mpr (wp_conseq (wp_reply_kept h awaitReply_moves c) fun _ => hkept)
  | tellConnect fp conns c =>
    exact (wp_bind _ _).mpr (wp_conseq (wp_command_kept h tcTellConnect_moves c) fun _ => hkept)
  | connectedSocket c =>
    exact (wp_bind _ _).mpr (wp_conseq (wp_reply_kept h awaitReply_moves c) fun _ => hkept)
  | setBwRate bw c =>
    exact (wp_bind _ _).mpr (wp_conseq (wp_command_kept h tcSetBwRate_moves c) fun _ => hkept)
  | didSetBwRate c =>
    exact (wp_bind _ _).mpr (wp_conseq (wp_reply_kept h awaitReply_moves c) fun _ => hkept)
  | startMeasurement dur c =>
    exact (wp_bind _ _).mpr
      (wp_conseq (wp_command_kept h tcStartMeasurement_moves c) fun _ => hkept)
  | outputResult p c =>
    exact (wp_bind _ _).mpr (wp_conseq (wp_outputResult_kept h p c) fun _ => hkept)
  | markFailed c => exact wp_conseq (wp_markFailed_kept h c) fun _ => hkept

end Calls

/-! The runs. -/

section Runs
variable {s t : Loop} {calls : List ClientCall}

/-- The state in the middle of a run. -/
theorem exec_runCalls_append {a b : List ClientCall} :
    exec (runCalls (a ++ b)) s = (.ok (), t) ↔
      ∃ u, exec (runCalls a) s = (.ok (), u) ∧ exec (runCalls b) u = (.ok (), t) := by
  induction a generalizing s with
  | nil =>
    have hnil : exec (runCalls []) s = (.ok (), s) := rfl
    simp [hnil]
  | cons call a ih =>
    simp only [List.cons_append, runCalls, exec_bind]
    rcases exec (runCall call) s with ⟨_ | _, u⟩
    · simp
    · exact ih

theorem exec_runCalls_singleton {call : ClientCall} :
    exec (runCalls [call]) s = exec (runCall call) s := by
  simp only [runCalls, exec_bind]
  rcases exec (runCall call) s with ⟨_ | _, u⟩ <;> rfl

theorem exec_runCalls_snoc {call : ClientCall} :
    exec (runCalls (calls ++ [call])) s = (.ok (), t) ↔
      ∃ u, exec (runCalls calls) s = (.ok (), u) ∧ exec (runCall call) u = (.ok (), t) := by
  simp only [exec_runCalls_append, exec_runCalls_singleton]

theorem Held.run (h : Held s.co) (hrun : exec (runCalls calls) s = (.ok (), t)) : Held t.co := by
  induction calls using List.reverseRecOn generalizing t with
  | nil =>
    obtain rfl : s = t := (Prod.mk.inj hrun).2
    exact h
  | append_singleton calls call ih =>
    obtain ⟨u, hu, hcall⟩ := exec_runCalls_snoc.mp hrun
    exact (wp_returns (wp_runCall (ih hu) call) hcall).1

/-- In every state of the run the open descriptors are the ones that the clients hold, and a
connection attempt that fails has changed nothing. -/
structure AccountedRun (calls : List ClientCall) (s₀ : Loop) : Prop where
  accounted : ∀ pre t, pre <+: calls → exec (runCalls pre) s₀ = (.ok (), t) → t.co.Accounted
  refused : ∀ pre c t ret t', pre ++ [.makeSocket c] <+: calls →
    exec (runCalls pre) s₀ = (.ok (), t) → exec (makeSocket c) t = (.ok ret, t') → ret < 0 →
    t'.co = t.co
  unavailable : ∀ pre cls t t', pre ++ [.nextAvailable cls] <+: calls →
    exec (runCalls pre) s₀ = (.ok (), t) → exec (nextAvailable cls) t = (.ok none, t') →
    t'.co = t.co

/-- No call of the run has an attempt that leaks. -/
def Leakless (calls : List ClientCall) (s₀ : Loop) : Prop :=
  ∀ pre call t, pre ++ [call] <+: calls → exec (runCalls pre) s₀ = (.ok (), t) →
    ∀ a ∈ call.attempts t, a.leaks = false

theorem Leakless.lost {s₀ : Loop} (h : Leakless calls s₀) (hheld : Held s₀.co)
    (hstart : s₀.co.lost = []) (hrun : exec (runCalls calls) s₀ = (.ok (), t)) :
    t.co.lost = [] := by
  induction calls using List.reverseRecOn generalizing t with
  | nil =>
    obtain rfl : s₀ = t := (Prod.mk.inj hrun).2
    exact hstart
  | append_singleton calls call ih =>
    obtain ⟨u, hu, hcall⟩ := exec_runCalls_snoc.mp hrun
    have hu' := ih (fun pre c t hpre => h pre c t (hpre.trans (List.prefix_append _ _))) hu
    have hnone : (call.attempts u).countP Answer.leaks = 0 := by
      rw [List.countP_eq_zero]
      intro a ha
      rw [h calls call u (List.prefix_refl _) hu a ha]
      decide
    obtain ⟨-, hlen⟩ := wp_returns (wp_runCall (hheld.run hu) call) hcall
    rw [hu', hnone] at hlen
    exact List.length_eq_zero_iff.mp hlen

theorem held_of_idle {s : Coord} (h : ∀ x ∈ s.metas, x.idle = x) : Held s := by
  have hidle : ∀ x ∈ s.metas, x.state = .invalid ∧ x.fd = -1 := by
    intro x hx
    rw [← h x hx]
    exact ⟨rfl, rfl⟩
  refine ⟨fun x hx => .inl (hidle x hx), fun i j x y hx _ _ hpos => ?_, fun x hx hpos => ?_⟩
  · rw [(hidle x (List.mem_of_getElem? hx)).2] at hpos
    exact absurd hpos (by decide)
  · rw [(hidle x hx).2] at hpos
    exact absurd hpos (by decide)

/-- From idle clients and no open descriptors on, every state of a run is accounted for if and only
if no connection attempt of the run fails with the socket already open. -/
theorem accounted_run_iff {s₀ : Loop} (hfds : s₀.co.openFds = [])
    (hidle : ∀ x ∈ s₀.co.metas, x.idle = x) (hrun : exec (runCalls calls) s₀ = (.ok (), s)) :
    AccountedRun calls s₀ ↔ Leakless calls s₀ := by
  have hheld := held_of_idle hidle
  have hstart : s₀.co.lost = [] := by rw [Coord.lost, hfds, List.filter_nil]
  constructor
  · intro h pre call t hpre ht
    obtain ⟨post, rfl⟩ := hpre
    obtain ⟨u, hu, -⟩ := exec_runCalls_append.mp hrun
    obtain ⟨t', ht', hcall⟩ := exec_runCalls_snoc.mp hu
    obtain rfl : t = t' := by
      rw [ht] at ht'
      exact (Prod.mk.inj ht').2
    have hpre : pre <+: pre ++ [call] ++ post :=
      (List.prefix_append _ _).trans (List.prefix_append _ _)
    have hbefore := (hheld.run ht).accounted_iff.mp (h.accounted pre t hpre ht)
    have hafter := (hheld.run hu).accounted_iff.mp
      (h.accounted _ u (List.prefix_append _ _) hu)
    obtain ⟨-, hlen⟩ := wp_returns (wp_runCall (hheld.run ht) call) hcall
    rw [hbefore, hafter, List.length_nil, Nat.zero_add] at hlen
    intro a ha
    exact Bool.not_eq_true _ ▸ List.countP_eq_zero.mp hlen.symm a ha
  · intro h
    have hsub : ∀ pre, pre <+: calls → Leakless pre s₀ :=
      fun pre hpre p c t hp => h p c t (hp.trans hpre)
    refine ⟨fun pre t hpre ht => ?_, fun pre c t ret t' hpre ht hmake hneg => ?_,
      fun pre cls t t' hpre ht hnext => ?_⟩
    · exact (hheld.run ht).accounted_iff.mpr ((hsub pre hpre).lost hheld hstart ht)
    · have hmade := wp_returns (wp_makeSocket_made (hheld.run ht) c) hmake
      exact hmade.same hneg (h pre _ t hpre ht _ (List.mem_singleton.mpr rfl))
    · have hsought := wp_returns (wp_nextAvailable_sought (hheld.run ht) cls) hnext
      exact hsought.same rfl (h pre _ t hpre ht)

/-- The two clients before the first socket is opened, where connections end with `connected`. -/
def socketsStart (connected : Bool) : Loop where
  os := { twoClients.os with
    script := fun tick => { twoClients.os.script tick with connected := connected } }
  co := { twoClientsStart.co with openFds := [] }

theorem socketsStart_idle (connected : Bool) :
    ∀ x ∈ (socketsStart connected).co.metas, x.idle = x := by
  simp only [socketsStart, twoClientsStart, List.forall_mem_cons]
  exact ⟨rfl, rfl, fun _ h => absurd h List.not_mem_nil⟩

/-- The attempts of a run, call by call. -/
theorem leakless_of_calls {s₀ : Loop} (h : ∀ i < calls.length, ∀ call ∈ calls[i]?,
    ∀ a ∈ call.attempts (exec (runCalls (calls.take i)) s₀).2, a.leaks = false) :
    Leakless calls s₀ := by
  rintro pre call t ⟨post, rfl⟩ ht
  have htake : (pre ++ [call] ++ post).take pre.length = pre := by simp
  have hcall := h pre.length (by simp) call (by simp)
  rwa [htake, ht] at hcall

/-- Both clients are connected, the first one is given up and released, and then it is connected
again. -/
theorem accounted_run_accepted : AccountedRun
    [.nextAvailable (bytes "m"), .claim 0 1, .nextAvailable (bytes "n"), .claim 1 1, .markFailed 0,
      .finishedWithMeta 0, .nextAvailable (bytes "m")] (socketsStart true) := by
  have hret : (exec (runCalls [.nextAvailable (bytes "m"), .claim 0 1, .nextAvailable (bytes "n"),
      .claim 1 1, .markFailed 0, .finishedWithMeta 0, .nextAvailable (bytes "m")])
      (socketsStart true)).1 = .ok () := by
    decide +kernel
  apply (accounted_run_iff rfl (socketsStart_idle true) (exec_of_fst hret)).mpr
  apply leakless_of_calls
  decide +kernel

/-- A client that does not accept: `tc_make_socket` returns -1 with the client unchanged, and the
socket stays open. -/
theorem refused_socket_lost : ∃ t, exec (makeSocket 0) (socketsStart false) = (.ok (-1), t) ∧
    t.co.metas = (socketsStart false).co.metas ∧ t.co.openFds = [3] ∧ ¬ t.co.Accounted ∧
    ¬ AccountedRun [.makeSocket 0] (socketsStart false) := by
  have hret : (exec (makeSocket 0) (socketsStart false)).1 = .ok (-1) := by decide +kernel
  have hex := exec_of_fst hret
  have hfds : (exec (makeSocket 0) (socketsStart false)).2.co.openFds = [3] := by decide +kernel
  refine ⟨_, hex, by decide +kernel, hfds, fun hacc => ?_, fun hrun => ?_⟩
  · obtain ⟨x, hx, hfd⟩ := (hacc 3).mp (by rw [hfds]; decide)
    revert x
    decide +kernel
  · have hco := hrun.refused [] 0 _ _ _ (List.prefix_refl _) rfl hex (by decide)
    have hopen := congrArg Coord.openFds hco
    rw [hfds] at hopen
    cases hopen

end Runs
end Flashflow
