import Mathlib.Data.Set.Function
import Flashflow.Loop.Standing

/-! The two assignment passes. Each of them serves the clients of a measurement from fresh
parameters, in a turn of its own, and both give each client the same host. -/
namespace Flashflow
open Sched Program Matching LabelledRun

/-- Client `c` works for `m`. -/
def ClientOf (s : Coord) (m : UInt32) (c : ℕ) : Prop := ∃ x, s.metas[c]? = some x ∧ x.currentMId = m

/-- The host a pass gives to client `c`. -/
def hostOf (e : Measurement) (metas : List Meta) (m : UInt32) (c : ℕ) : ℕ :=
  ((metas[c]?.bind fun x => slots.firstFree (e.params.assigned metas m c).slots x.cls)).getD 0

section
variable {table : Msms} {s t : Coord} {m : UInt32} {c k : ℕ} {x : Meta} {e e' : Measurement}
  {metas : List Meta}

theorem hostOf_eq (hx : metas[c]? = some x)
    (hk : slots.firstFree (e.params.assigned metas m c).slots x.cls = some k) :
    hostOf e metas m c = k := by
  simp [hostOf, hx, hk]

/-! The passes pair the clients and the hosts one to one. -/

theorem hostOf_spec (hired : Hired e (classesOf metas m)) (hx : metas[c]? = some x)
    (hcur : x.currentMId = m) :
    slots.firstFree (e.params.assigned metas m c).slots x.cls = some (hostOf e metas m c) ∧
      ∃ host, e.hosts[hostOf e metas m c]? = some host ∧ utf8 host.cls = x.cls := by
  obtain ⟨k, slot, host, hk, -, hhost, hcls, -⟩ := exists_host hired hx hcur
  rw [hostOf_eq hx hk]
  exact ⟨hk, host, hhost, hcls⟩

theorem hostOf_mapsTo (hired : Hired e (classesOf s.metas m)) :
    Set.MapsTo (hostOf e s.metas m) {c | ClientOf s m c} (Set.Iio e.hosts.length) := by
  rintro c ⟨x, hx, hcur⟩
  obtain ⟨-, host, hhost, -⟩ := hostOf_spec hired hx hcur
  exact (List.getElem?_eq_some_iff.mp hhost).1

/-- A later client comes after the earlier one has been served. -/
theorem seen_later {c' : ℕ} (hx : metas[c]? = some x) (hcur : x.currentMId = m) (hlt : c < c') :
    ∃ post, seen metas m c' = seen metas m c ++ x.cls :: post := by
  have hpre : seen metas m (c + 1) <+: seen metas m c' :=
    ((List.take_prefix_take_left (Nat.succ_le_of_lt hlt)).filter _).map _
  rw [seen_succ hx, if_pos hcur] at hpre
  obtain ⟨post, hpost⟩ := hpre
  exact ⟨post, by rw [← hpost, List.append_assoc, List.singleton_append]⟩

theorem hostOf_ne {c' : ℕ} {x' : Meta} (hired : Hired e (classesOf metas m))
    (hx : metas[c]? = some x) (hcur : x.currentMId = m) (hx' : metas[c']? = some x')
    (hcur' : x'.currentMId = m) (hlt : c < c') : hostOf e metas m c ≠ hostOf e metas m c' := by
  intro heq
  obtain ⟨post, hseen⟩ := seen_later hx hcur hlt
  have hk := (hostOf_spec hired hx hcur).1
  have hk' := (hostOf_spec hired hx' hcur').1
  rw [← heq] at hk'
  exact firstFree_serve_inj hk hseen hk'

theorem hostOf_injOn (hired : Hired e (classesOf s.metas m)) :
    Set.InjOn (hostOf e s.metas m) {c | ClientOf s m c} := by
  rintro c ⟨x, hx, hcur⟩ c' ⟨x', hx', hcur'⟩ heq
  rcases Nat.lt_trichotomy c c' with hlt | rfl | hlt
  · exact absurd heq (hostOf_ne hired hx hcur hx' hcur' hlt)
  · rfl
  · exact absurd heq.symm (hostOf_ne hired hx' hcur' hx hcur hlt)

/-- Each request of a pass is that of a client. -/
theorem client_of_seen {n : ℕ} {pre post : List Bytes} {d : Bytes}
    (h : seen metas m n = pre ++ d :: post) : ∃ c x, metas[c]? = some x ∧ x.currentMId = m ∧
      x.cls = d ∧ seen metas m c = pre := by
  induction n generalizing post with
  | zero => simp [seen_zero] at h
  | succ n ih =>
    cases hx : metas[n]? with
    | none =>
      have hlen := List.getElem?_eq_none_iff.mp hx
      rw [seen_of_length_le (by omega)] at h
      rw [seen_of_length_le hlen] at ih
      exact ih h
    | some x =>
      rw [seen_succ hx] at h
      by_cases hcur : x.currentMId = m
      · rw [if_pos hcur] at h
        rcases List.eq_nil_or_concat post with rfl | ⟨post, z, rfl⟩
        · obtain ⟨hpre, hd⟩ := List.append_inj' h rfl
          exact ⟨n, x, hx, hcur, by simpa using hd, hpre⟩
        · rw [List.concat_eq_append, ← List.cons_append, ← List.append_assoc] at h
          exact ih (List.append_inj' h rfl).1
      · rw [if_neg hcur, List.append_nil] at h
        exact ih h

theorem hostOf_surjOn (hired : Hired e (classesOf s.metas m)) :
    Set.SurjOn (hostOf e s.metas m) {c | ClientOf s m c} (Set.Iio e.hosts.length) := by
  intro k hk
  have hall := all_taken_serve (K := slots) (l := e.params.slots) params_free
    (hired.classes.trans (params_classes ▸ List.Perm.refl _))
  have hlen : k < (slots.serve e.params.slots (classesOf s.metas m)).length := by
    have hlab := congrArg List.length
      (labels_serve (K := slots) e.params.slots (classesOf s.metas m))
    simp only [List.length_map] at hlab
    rw [hlab]
    simpa [Measurement.params] using hk
  have htaken : slots.TakenAt (slots.serve e.params.slots (classesOf s.metas m)) k :=
    ⟨_, List.getElem?_eq_getElem hlen, hall _ (List.getElem_mem hlen)⟩
  rcases takenAt_serve.mp htaken with ⟨slot, hslot, hfalse⟩ | ⟨pre, d, post, hsplit, hd⟩
  · have hfree : slots.taken slot = false := params_free slot (List.mem_of_getElem? hslot)
    rw [hfree] at hfalse
    cases hfalse
  · rw [← seen_all] at hsplit
    obtain ⟨c, x, hx, hcur, rfl, rfl⟩ := client_of_seen hsplit
    exact ⟨c, ⟨x, hx, hcur⟩, hostOf_eq hx hd⟩

theorem hostOf_bijOn (hired : Hired e (classesOf s.metas m)) :
    Set.BijOn (hostOf e s.metas m) {c | ClientOf s m c} (Set.Iio e.hosts.length) :=
  ⟨hostOf_mapsTo hired, hostOf_injOn hired, hostOf_surjOn hired⟩

/-! Once a command has been sent, the clients of a measurement stay the same until it ends. -/

theorem crew_of_client (h : Coherent table s) (hlive : s.msms.stateOf m = some .inProgress)
    (hx : s.metas[c]? = some x) (hcur : x.currentMId = m) :
    s.crew.place c = some (m, x.state.moves) := by
  have hne : x.currentMId ≠ 0 := hcur ▸ h.nonzero hlive
  exact Coord.crew_place.mpr ⟨x, hx, by rw [Meta.place_of_ne hne, hcur]⟩

theorem ClientOf.iff_joined (h : Coherent table s) (hlive : s.msms.stateOf m = some .inProgress) :
    ClientOf s m c ↔ .joined c m ∈ s.trace.map Event.abs := by
  constructor
  · rintro ⟨x, hx, hcur⟩
    exact (h.seen.placed (crew_of_client h hlive hx hcur)).2.1
  · intro hj
    obtain ⟨n, hn⟩ := (h.seen.joined hj).2 (statusOf_running.mpr hlive)
    obtain ⟨x, hx, hp⟩ := Coord.crew_place.mp hn
    exact ⟨x, hx, (Meta.place_eq_some hp).1⟩

theorem clientOf_iff (hs : Coherent table s) (ht : Coherent table t) (htr : s.trace <+: t.trace)
    (hlive : s.msms.stateOf m = some .inProgress) (hlive' : t.msms.stateOf m = some .inProgress)
    (hx : s.metas[c]? = some x) (hcur : x.currentMId = m) (hmoved : 1 ≤ x.state.moves) (k : ℕ) :
    ClientOf s m k ↔ ClientOf t m k := by
  rw [ClientOf.iff_joined hs hlive, ClientOf.iff_joined ht hlive']
  obtain ⟨late, hlate⟩ := htr
  have hsplit : t.trace.map Event.abs = s.trace.map Event.abs ++ late.map Event.abs := by
    rw [← hlate, List.map_append]
  have hsent := hs.seen.moved (crew_of_client hs hlive hx hcur) 0 (by omega)
  constructor
  · intro hj
    rw [hsplit]
    exact List.mem_append_left _ hj
  · exact Barrier.joined_before_sent (fun _ => rfl) ht.runs hsplit hsent

/-- The same clients of the same classes are met in the same order. -/
theorem seen_congr (hwho : t.metas.map Meta.who = s.metas.map Meta.who)
    (hsame : ∀ c, ClientOf s m c ↔ ClientOf t m c) (n : ℕ) :
    seen t.metas m n = seen s.metas m n := by
  induction n with
  | zero => rw [seen_zero, seen_zero]
  | succ n ih =>
    have hlen : t.metas.length = s.metas.length := by simpa using congrArg List.length hwho
    rcases Nat.lt_or_ge n s.metas.length with hn | hn
    · have hx := List.getElem?_eq_getElem hn
      have hy := List.getElem?_eq_getElem (hlen.symm ▸ hn : n < t.metas.length)
      have hcls : t.metas[n].cls = s.metas[n].cls := by
        have hk := congrArg (·[n]?) hwho
        simp only [List.getElem?_map, hx, hy, Option.map_some, Option.some.injEq] at hk
        exact congrArg Prod.fst hk
      have hiff : t.metas[n].currentMId = m ↔ s.metas[n].currentMId = m := by
        have hk := hsame n
        simp only [ClientOf, hx, hy, Option.some.injEq, exists_eq_left'] at hk
        exact hk.symm
      rw [seen_succ hx, seen_succ hy, ih, hcls]
      simp only [hiff]
    · rw [seen_of_length_le (by omega), seen_of_length_le hn] at ih
      rw [seen_of_length_le (by omega), seen_of_length_le (by omega), ih]

/-- A pass tells the number of connections and the bandwidth of a slot only. -/
theorem message_congr {slot : Slot} {host : Host} (hconns : host.conns = slot.nconn)
    (hbw : host.bw = slot.bw) (a : Pass) (fp : Bytes) :
    a.message fp slot = a.message fp host.slot := by
  cases a with
  | connect => simp only [Pass.message, Host.slot, hconns]
  | setBw => simp only [Pass.message, Host.slot, hbw]

/-- In its turn of a pass a client of the measurement is told about its host. This depends only on
the plan of the measurement and on who works for it; the others are told nothing. -/
theorem tells_host {s t u : Loop} (hired : Hired e (classesOf s.co.metas m))
    (hplan : e'.plan = e.plan) (hwho : t.co.metas.map Meta.who = s.co.metas.map Meta.who)
    (hsame : ∀ c, ClientOf s.co m c ↔ ClientOf t.co m c) {q : MsmParams}
    (hq : q = e'.params.assigned t.co.metas m c) {a : Pass} {r : Turn MsmParams Unit}
    (hr : exec (assignTurn m a.phase.waits (a.tell q.fp) c q) t = (.ok r, u)) :
    (ClientOf s.co m c → ∃ h, e.hosts[hostOf e s.co.metas m c]? = some h ∧
      Commanded m c a.phase (a.message (utf8 e.fp) h.slot) r t u) ∧
    (¬ ClientOf s.co m c → r = .next q ∧ u = t) := by
  have hslots : q.slots = (e.params.assigned s.co.metas m c).slots := by
    simp only [hq, MsmParams.assigned, Measurement.params, hosts_of_plan hplan,
      seen_congr hwho hsame]
  have hfp : q.fp = utf8 e.fp := by
    simp only [hq, MsmParams.assigned, Measurement.params, fp_of_plan hplan]
  refine ⟨fun hclient => ?_, fun hother => ?_⟩
  · obtain ⟨x, hx, hcur⟩ := id hclient
    obtain ⟨y, hy, hycur⟩ := (hsame c).mp hclient
    -- the client at the time of the turn has the class it had
    have hcls : y.cls = x.cls := by
      have hk := congrArg (·[c]?) hwho
      simp only [List.getElem?_map, hx, hy, Option.map_some, Option.some.injEq] at hk
      exact congrArg Prod.fst hk
    obtain ⟨k, slot, host, hk, hslot, hhost, -, hbw, hconns⟩ := exists_host hired hx hcur
    rw [← hslots] at hk hslot
    refine ⟨host, (hostOf_eq hx (hslots ▸ hk)).symm ▸ hhost, ?_⟩
    rcases assignTurn_ok hr with ⟨-, -, hnone⟩ | ⟨slot', hsent, hpicked⟩
    · rw [← hcls, hnone y hy hycur] at hk
      cases hk
    · obtain ⟨k', hk', hslot'⟩ := hpicked y hy
      rw [hcls, hk, Option.some.injEq] at hk'
      obtain rfl : slot = slot' := Option.some.inj (hslot.symm.trans (hk' ▸ hslot'))
      rw [hfp, message_congr hconns hbw] at hsent
      exact hsent
  · rcases assignTurn_ok hr with ⟨rfl, rfl, -⟩ | ⟨-, ⟨y, hy, hycur, -⟩, -⟩
    · exact ⟨rfl, rfl⟩
    · exact absurd ((hsame c).mpr ⟨y, hy, hycur⟩) hother

end

/-- Both passes pair the same hosts and clients. From the start of the pass that tells the clients
of a measurement to connect, whatever else happens, in each turn of this pass and of the one that
sets the rates a client of the measurement is sent the number of connections or the bandwidth of
one and the same host, and the others are sent nothing; these hosts are those of its class, and
each host is that of exactly one client. -/
theorem same_host {r : Round} {i : ℕ} {m : UInt32} {q : MsmParams} {s : Loop}
    (h : Reach r (.tell .connect i m 0 q, s)) : ∃ (e : Measurement) (host : ℕ → ℕ),
      s.co.msms.get? m = some e ∧
      Set.BijOn host {c | ClientOf s.co m c} (Set.Iio e.hosts.length) ∧
      (∀ (c : ℕ) (x : Meta), s.co.metas[c]? = some x → x.currentMId = m →
        ∃ h, e.hosts[host c]? = some h ∧ utf8 h.cls = x.cls) ∧
      ∀ (a : Pass) (i' c : ℕ) (q' : MsmParams) (t u : Loop) (r : Turn MsmParams Unit),
        Walk (.tell .connect i m 0 q, s) (.tell a i' m c q', t) →
        exec (assignTurn m a.phase.waits (a.tell q'.fp) c q') t = (.ok r, u) →
        (ClientOf s.co m c → ∃ h, e.hosts[host c]? = some h ∧
          Commanded m c a.phase (a.message (utf8 e.fp) h.slot) r t u) ∧
        (¬ ClientOf s.co m c → r = .next q' ∧ u = t) := by
  obtain ⟨-, table, -, hholds⟩ := h.holds
  obtain ⟨e, s₀, hpass, -⟩ := id hholds
  have hcoh := hpass.passing.rest.coherent
  have he : s.co.msms.get? m = some e := hpass.passing.msms ▸ hpass.entry
  have hired : Hired e (classesOf s.co.metas m) := by
    rw [classesOf_keys, hpass.passing.keys, ← classesOf_keys]
    exact hpass.hired
  refine ⟨e, hostOf e s.co.metas m, he, hostOf_bijOn hired,
    fun c x hx hcur => (hostOf_spec hired hx hcur).2, fun a i' c q' t u r hwalk hr => ?_⟩
  obtain ⟨e', t₀, hpass', -, -, hq'⟩ := hwalk.holds hholds
  have hcoh' := hpass'.passing.rest.coherent
  have hext := hwalk.extends
  -- the entry of the table has kept its plan
  have hplan : e'.plan = e.plan := by
    obtain ⟨e₀, h₀, hp⟩ := hcoh.loaded he
    obtain ⟨e₁, h₁, hp'⟩ := hcoh'.loaded (hpass'.passing.msms ▸ hpass'.entry)
    obtain rfl : e₀ = e₁ := Option.some.inj (h₀.symm.trans h₁)
    exact hp'.symm.trans hp
  -- somebody has been told to authenticate, so nobody has joined since
  obtain ⟨x, hmem, hcur⟩ := exists_owner hired
  obtain ⟨k, hx⟩ := List.mem_iff_getElem?.mp hmem
  have hmoved : 1 ≤ x.state.moves := by
    have hst := hpass.passing.states k x hx hcur
    rw [if_neg (Nat.not_lt_zero k)] at hst
    rw [hst]
    decide
  have hsame := clientOf_iff hcoh hcoh' hext.trace hpass.passing.rest.live
    hpass'.passing.rest.live hx hcur hmoved
  refine tells_host hired hplan hext.who hsame ?_ hr
  rw [hq', MsmParams.assigned, MsmParams.assigned, seen, seen, hpass'.passing.keys]

/-! In the second turn of `twoClients` both clients are authenticated and are told to connect, in
the third they have connected and are given their rates. -/

/-- The parameters of the measurement. -/
def twoClientsParams : MsmParams :=
  ⟨1, bytes "AA", 30, 45, [⟨bytes "m", 100, 2, false⟩, ⟨bytes "n", 50, 1, false⟩]⟩

/-- At the start of the second turn's pass. -/
def twoClientsTelling : Loop :=
  (exec (isTotally .authed 1) (exec (assertFillParams 1)
    (exec turnToAdvance (twoClientsStart.after 1)).2).2).2

theorem twoClients_reach_tell :
    Reach twoClients (.tell .connect 0 1 0 twoClientsParams, twoClientsTelling) := by
  let s := (exec turnToAdvance (twoClientsStart.after 1)).2
  let t := (exec (assertFillParams 1) s).2
  have h : Reach twoClients (.advance 0, s) :=
    (twoClients_atHead (n := 1) (by decide)).reach_advance (by decide +kernel)
      (exec_of_fst (by decide +kernel))
  have hp : exec (assertFillParams 1) s = (.ok twoClientsParams, t) :=
    exec_of_fst (by decide +kernel)
  have hall : exec (isTotally .authed 1) t = (.ok true, twoClientsTelling) :=
    exec_of_fst (by decide +kernel)
  exact h.walk (.tail (.single (.turn (by decide +kernel) hp)) (.pass (a := .connect) hall))

/-- The rest of a turn with one measurement in progress that is in the middle of its first pass,
and the next turn up to its second pass. -/
theorem walk_to_setBw {c : Config} {m : UInt32} {q q' : MsmParams} {i : ℕ}
    {s₂ s₃ s₄ s₅ s₆ s₇ s₈ s₉ s : Loop} (h : Walk c (.check .setBw i m q, s₂))
    (h₃ : exec (setBwStage m q) s₂ = (.ok (some q), s₃))
    (h₄ : exec (startStage m q) s₃ = (.ok true, s₄))
    (h₅ : exec (doneStage i m) s₄ = (.ok false, s₅)) (hlast : s₅.co.known[i + 1]? = none)
    (h₆ : exec pollStage s₅ = (.ok true, s₆)) (hfin : schedFinished s₆.co.msms = false)
    (h₇ : exec turnToAdvance s₆ = (.ok (), s₇)) (hfirst : s₇.co.known[0]? = some m)
    (h₈ : exec (assertFillParams m) s₇ = (.ok q', s₈))
    (h₉ : exec (isTotally .authed m) s₈ = (.ok false, s₉))
    (hall : exec (isTotally .connectedTarget m) s₉ = (.ok true, s)) :
    Walk c (.tell .setBw 0 m 0 q', s) := by
  have w₃ := wp_returns (walk_setBwStage h) h₃
  have w₄ := wp_returns (walk_startStage w₃) h₄
  have w₅ := w₄.tail (.unfinished h₅)
  have w₆ := wp_returns (walk_pollStage (w₅.tail (.advanced hlast))) h₆ rfl
  have w₇ := w₆.trans (wp_returns (walk_turnToAdvance hfin) h₇)
  have w₈ := (w₇.tail (.turn hfirst h₈)).tail (.noPass (a := .connect) h₉)
  exact w₈.tail (.pass (a := .setBw) hall)

/-- From the one pass to the other. -/
theorem twoClients_walk_setBw : ∃ t q u,
    exec (assignTurn 1 .toldConnectTarget (Pass.connect.tell (bytes "AA")) 0 twoClientsParams)
      twoClientsTelling = (.ok (.next q), t) ∧
    Walk (.tell .connect 0 1 0 twoClientsParams, twoClientsTelling)
      (.tell .setBw 0 1 0 twoClientsParams, u) ∧
    (exec (assignTurn 1 .settingBw (Pass.setBw.tell (bytes "AA")) 0 twoClientsParams) u).1 =
      .ok (.next q) := by
  let q : MsmParams := ⟨1, bytes "AA", 30, 45,
    [⟨bytes "m", 100, 2, true⟩, ⟨bytes "n", 50, 1, false⟩]⟩
  let q' : MsmParams := ⟨1, bytes "AA", 30, 45,
    [⟨bytes "m", 100, 2, true⟩, ⟨bytes "n", 50, 1, true⟩]⟩
  let tell := assignTurn 1 .toldConnectTarget (Pass.connect.tell (bytes "AA"))
  let s₁ := (exec (tell 0 twoClientsParams) twoClientsTelling).2
  let s₂ := (exec (tell 1 q) s₁).2
  have h₁ : exec (tell 0 twoClientsParams) twoClientsTelling = (.ok (.next q), s₁) :=
    exec_of_fst (by decide +kernel)
  have h₂ : exec (tell 1 q) s₁ = (.ok (.next q'), s₂) := exec_of_fst (by decide +kernel)
  have hlen : s₂.co.metas.length = 2 := by decide +kernel
  have w₂ : Walk (.tell .connect 0 1 0 twoClientsParams, twoClientsTelling)
      (.tell .connect 0 1 s₂.co.metas.length q', s₂) :=
    hlen ▸ .tail (.single (.told (by decide +kernel) h₁)) (.told (by decide +kernel) h₂)
  have hall : ¬ ∃ slot ∈ q'.slots, slot.assigned = false := by decide
  refine ⟨s₁, q, _, h₁, walk_to_setBw (w₂.tail (.allTold (a := .connect) hall))
    (exec_of_fst ?_) (exec_of_fst ?_) (exec_of_fst ?_) ?_ (exec_of_fst ?_) ?_ (exec_of_fst ?_) ?_
    (exec_of_fst ?_) (exec_of_fst ?_) (exec_of_fst ?_), ?_⟩
  all_goals decide +kernel

/-- The first client is told to make the two connections of the first host, and then its rate. -/
theorem same_host_twoClients : ∃ (s t u : Loop) (q : MsmParams) (host : ℕ → ℕ) (h : Host),
    Walk (.tell .connect 0 1 0 twoClientsParams, twoClientsTelling)
      (.tell .setBw 0 1 0 twoClientsParams, s) ∧
    Set.BijOn host {c | ClientOf twoClientsTelling.co 1 c} (Set.Iio 2) ∧
    [⟨"m".toList, 100, 2⟩, ⟨"n".toList, 50, 1⟩][host 0]? = some h ∧ utf8 h.cls = bytes "m" ∧
    Commanded 1 0 .connect (tcTellConnect (bytes "AA") h.conns) (.next q) twoClientsTelling t ∧
    Commanded 1 0 .setBw (tcSetBwRate h.bw) (.next q) s u := by
  obtain ⟨t, q, s, htold, hwalk, hset⟩ := twoClients_walk_setBw
  obtain ⟨e, host, he, hbij, hcls, hturns⟩ := same_host twoClients_reach_tell
  have hhosts : (twoClientsTelling.co.msms.get? 1).map (fun e => (e.fp, e.hosts)) =
      some ("AA".toList, [⟨"m".toList, 100, 2⟩, ⟨"n".toList, 50, 1⟩]) := by decide +kernel
  rw [he, Option.map_some, Option.some.injEq, Prod.mk.injEq] at hhosts
  obtain ⟨hfp, hhosts⟩ := hhosts
  rw [hhosts] at hbij hcls hturns
  rw [hfp] at hturns
  have hclient : ∃ x, twoClientsTelling.co.metas[0]? = some x ∧ x.currentMId = 1 ∧
      x.cls = bytes "m" := by
    decide +kernel
  obtain ⟨x, hx, hcur, hm⟩ := hclient
  obtain ⟨h, hh, hm'⟩ := hcls 0 x hx hcur
  obtain ⟨h₁, hh₁, hsent₁⟩ :=
    (hturns .connect 0 0 twoClientsParams _ _ _ .refl htold).1 ⟨x, hx, hcur⟩
  obtain ⟨h₂, hh₂, hsent₂⟩ :=
    (hturns .setBw 0 0 twoClientsParams _ _ _ hwalk (exec_of_fst hset)).1 ⟨x, hx, hcur⟩
  obtain rfl : h = h₁ := Option.some.inj (hh.symm.trans hh₁)
  obtain rfl : h = h₂ := Option.some.inj (hh.symm.trans hh₂)
  exact ⟨s, t, _, q, host, h, hwalk, hbij, hh, hm'.trans hm, hsent₁, hsent₂⟩

end Flashflow
