import Flashflow.Loop.Start

/-! The stages that move a known measurement on: each acts once all its clients have been confirmed
in the phase before. -/
namespace Flashflow
open Sched Program Arrays Outcome Matching

variable {table : Msms} {s : Loop} {m : UInt32} {p : Phase} {e : Measurement}

/-- The classes of the clients of `m` among the first `j`. -/
def seen (metas : List Meta) (m : UInt32) (j : ℕ) : List Bytes :=
  (((metas.map Meta.key).take j).filter fun k => k.2 = m).map Prod.fst

theorem seen_zero (metas : List Meta) (m : UInt32) : seen metas m 0 = [] := by simp [seen]

theorem seen_of_length_le {metas : List Meta} {j : ℕ} (hj : metas.length ≤ j) :
    seen metas m j = classesOf metas m := by
  rw [seen, classesOf_keys, List.take_of_length_le (by simpa using hj)]

theorem seen_all (metas : List Meta) (m : UInt32) :
    seen metas m metas.length = classesOf metas m := seen_of_length_le (Nat.le_refl _)

theorem seen_succ {metas : List Meta} {j : ℕ} {x : Meta} (hx : metas[j]? = some x) :
    seen metas m (j + 1) = seen metas m j ++ if x.currentMId = m then [x.cls] else [] := by
  have hk : (metas.map Meta.key)[j]? = some x.key := by simp [hx]
  rw [seen, seen, List.take_add_one, hk]
  by_cases hcur : x.currentMId = m <;> simp [Meta.key, hcur]

/-- The client at `j` is one of those that are still to come. -/
theorem seen_before {metas : List Meta} {j : ℕ} {x : Meta} (hx : metas[j]? = some x)
    (hcur : x.currentMId = m) : ∃ rest, classesOf metas m = seen metas m j ++ x.cls :: rest := by
  have hk : (metas.map Meta.key)[j]? = some x.key := by simp [hx]
  obtain ⟨pre, post, hl, hlen, -⟩ := split_at hk
  refine ⟨(post.filter fun k => k.2 = m).map Prod.fst, ?_⟩
  rw [classesOf_keys, seen, hl, List.take_left' hlen, List.filter_append,
    List.filter_cons_of_pos (by simp [Meta.key, hcur])]
  simp [Meta.key]

/-- Each slot stays that of its host. -/
theorem host_of_served {cs : List Bytes} {k : ℕ} {slot : Slot}
    (h : (slots.serve e.params.slots cs)[k]? = some slot) : ∃ host, e.hosts[k]? = some host ∧
      utf8 host.cls = slot.cls ∧ host.bw = slot.bw ∧ host.conns = slot.nconn := by
  have hmap := map_serve (K := slots) (g := fun slot => (slot.cls, slot.bw, slot.nconn))
    (fun _ => rfl) e.params.slots cs
  have hk : some (slot.cls, slot.bw, slot.nconn) =
      (e.params.slots.map fun slot => (slot.cls, slot.bw, slot.nconn))[k]? := by
    rw [← hmap, List.getElem?_map, h, Option.map_some]
  simp only [Measurement.params, List.getElem?_map, Option.map_map] at hk
  obtain ⟨host, hhost, heq⟩ := Option.map_eq_some_iff.mp hk.symm
  simp only [Function.comp_apply, Host.slot, Prod.mk.injEq] at heq
  exact ⟨host, hhost, heq⟩

theorem params_free : ∀ slot ∈ e.params.slots, slot.assigned = false := by
  simp [Measurement.params, Host.slot]

theorem params_classes : e.params.slots.map Slot.cls = e.hosts.map fun h => utf8 h.cls := by
  simp [Measurement.params, Host.slot, Function.comp_def]

/-- A background client and a host with another number of connections have met. -/
theorem Rest.mismatch (h : Rest table m s.co) {x : Meta} (hx : x ∈ s.co.metas) (hbg : x.isBg = true)
    (he : s.co.msms.get? m = some e) {host : Host} (hhost : host ∈ e.hosts)
    (hcls : utf8 host.cls = x.cls) (hconns : host.conns ≠ 1) : Mismatch table s.co := by
  have hst : e.state = .inProgress := by simpa [Msms.stateOf, he] using h.live
  obtain ⟨e₀, he₀, hinc, hplan⟩ := h.coherent.loaded_incomplete he (by simp [hst])
  exact ⟨x, hx, hbg, e₀, he₀, hinc, host, hosts_of_plan hplan ▸ hhost, hcls, hconns⟩

/-- The parameters after the clients in front of `j` have been assigned their hosts. -/
def MsmParams.assigned (q : MsmParams) (metas : List Meta) (m : UInt32) (j : ℕ) : MsmParams :=
  { q with slots := Flashflow.slots.serve q.slots (seen metas m j) }

/-- In its turn a client of the measurement finds a free slot of a host of its class. -/
theorem exists_host {metas : List Meta} (hired : Hired e (classesOf metas m)) {j : ℕ} {x : Meta}
    (hx : metas[j]? = some x) (hcur : x.currentMId = m) : ∃ k slot host,
      slots.firstFree (e.params.assigned metas m j).slots x.cls = some k ∧
      (e.params.assigned metas m j).slots[k]? = some slot ∧ e.hosts[k]? = some host ∧
      utf8 host.cls = x.cls ∧ host.bw = slot.bw ∧ host.conns = slot.nconn := by
  obtain ⟨rest, hrest⟩ := seen_before hx hcur
  have hperm : (seen metas m j ++ x.cls :: rest).Perm (e.params.slots.map slots.label) := by
    rw [← hrest]
    exact hired.classes.trans (params_classes ▸ List.Perm.refl _)
  obtain ⟨k, hk⟩ := exists_firstFree_serve params_free hperm
  obtain ⟨pre, slot, post, hsl, hlen, hslot, -⟩ := split_of_firstFree hk
  have hget : (slots.serve e.params.slots (seen metas m j))[k]? = some slot := by
    rw [hsl, ← hlen]
    simp
  obtain ⟨host, hhost, hcls, hbw, hconns⟩ := host_of_served hget
  exact ⟨k, slot, host, hk, hget, hhost, hcls.trans hslot, hbw, hconns⟩

/-- One turn of an assignment pass over the fresh parameters of the measurement: the client finds a
host of its class. -/
theorem wp_assignTurn {f : Slot → Option ℕ → Meta → Except Abort (Bool × Bytes × Meta)}
    (hf : ∀ slot, Sends p (slot.nconn ≠ 1) (f slot)) {s₀ : Coord} {j : ℕ} (hj : j < s₀.metas.length)
    (h : Passing table m p s₀ j s.co) (he : s₀.msms.get? m = some e)
    (hired : Hired e (classesOf s₀.metas m)) :
    wp (assignTurn m p.waits (fun slot => command p (f slot)) j (e.params.assigned s₀.metas m j))
      (Turn.Post
        (fun q' t => Passing table m p s₀ (j + 1) t.co ∧ q' = e.params.assigned s₀.metas m (j + 1))
        (fun _ t => Rest table m t.co ∧ t.co.known = s₀.known)) (Aborted table) s := by
  have hlt : j < s.co.metas.length := h.length.symm ▸ hj
  have hx := List.getElem?_eq_getElem hlt
  have hx₀ : s₀.metas[j]? = some s₀.metas[j] := List.getElem?_eq_getElem hj
  have hkey : s.co.metas[j].key = s₀.metas[j].key := by
    have hk := congrArg (·[j]?) h.keys
    simpa [hx, hx₀] using hk
  obtain ⟨hcls, hcur₀⟩ := Prod.mk.inj hkey
  simp only [assignTurn, wp_bind, wp_metaAt, hx]
  by_cases hcur : s.co.metas[j].currentMId = m
  · obtain ⟨k, slot, host, hk, hget, hhost, hhcls, -, hconns⟩ :=
      exists_host hired hx₀ (hcur₀.symm.trans hcur)
    rw [← hcls] at hk hhcls
    have hbg : s.co.metas[j].isBg = true → slot.nconn ≠ 1 → Mismatch table s.co := fun hisBg hne =>
      h.rest.mismatch (List.getElem_mem hlt) hisBg (h.msms ▸ he) (List.mem_of_getElem? hhost)
        hhcls (hconns ▸ hne)
    rw [if_pos hcur]
    simp only [hk, hget, wp_bind]
    apply wp_conseq (h.wp_command (hf slot) hbg hx hcur)
    rintro (_ | _) u hu
    · simpa using hu
    · obtain ⟨hu, y, hy, hst⟩ := hu
      simp only [not_true_eq_false, ↓reduceIte, wp_bind]
      rw [wp_assertState hy hst, wp_pure]
      rw [MsmParams.assigned] at hk
      refine ⟨hu, ?_⟩
      rw [MsmParams.assigned, MsmParams.assigned, seen_succ hx₀, if_pos (hcur₀.symm.trans hcur),
        ← hcls, serve_snoc, Slots.serveOne, hk]
  · rw [if_neg hcur, wp_pure]
    refine ⟨h.skip hx hcur, ?_⟩
    rw [MsmParams.assigned, MsmParams.assigned, seen_succ hx₀,
      if_neg (fun hm => hcur (hcur₀.trans hm)), List.append_nil]

/-- The first `n` turns of an assignment pass. -/
theorem wp_assignTurns {f : Slot → Option ℕ → Meta → Except Abort (Bool × Bytes × Meta)}
    (hf : ∀ slot, Sends p (slot.nconn ≠ 1) (f slot)) (h : Rest table m s.co)
    (hall : ∀ y ∈ s.co.metas, y.currentMId = m → y.state = p.before)
    (he : s.co.msms.get? m = some e) (hired : Hired e (classesOf s.co.metas m)) {n : ℕ}
    (hn : n ≤ s.co.metas.length) :
    wp (forRange n e.params (assignTurn m p.waits (fun slot => command p (f slot)))) (Turn.Post
      (fun q t => Passing table m p s.co n t.co ∧ q = e.params.assigned s.co.metas m n)
      (fun _ t => Rest table m t.co ∧ t.co.known = s.co.known)) (Aborted table) s := by
  refine wp_forRange (fun j q (t : Loop) => Passing table m p s.co j t.co ∧
      q = e.params.assigned s.co.metas m j) _ ?_ ⟨Passing.start h hall, ?_⟩
  · rintro j hj q t ⟨ht, rfl⟩
    exact wp_assignTurn hf (Nat.lt_of_lt_of_le hj hn) ht he hired
  · rw [MsmParams.assigned, seen_zero, serve_nil]

/-- The assignment pass: every client of the measurement finds a host of its class, and in the end
every host is assigned. -/
theorem wp_assignPass {f : Slot → Option ℕ → Meta → Except Abort (Bool × Bytes × Meta)}
    (hf : ∀ slot, Sends p (slot.nconn ≠ 1) (f slot)) (h : Rest table m s.co)
    (hall : ∀ y ∈ s.co.metas, y.currentMId = m → y.state = p.before)
    (he : s.co.msms.get? m = some e) (hired : Hired e (classesOf s.co.metas m)) :
    wp (assignPass m p.waits (fun slot => command p (f slot)) e.params) (Turn.Post
      (fun q t => Passing table m p s.co s.co.metas.length t.co ∧
        q.slots.length = e.params.slots.length ∧ ∀ slot ∈ q.slots, slot.assigned = true)
      (fun _ t => Rest table m t.co ∧ t.co.known = s.co.known)) (Aborted table) s := by
  rw [assignPass, wp_bind, wp_numMetas]
  apply wp_conseq (wp_assignTurns hf h hall he hired (Nat.le_refl _))
  rintro (q | ⟨⟩) t ht
  · obtain ⟨hpass, rfl⟩ := ht
    refine ⟨hpass, ?_, ?_⟩
    · have hlab := labels_serve (K := slots) e.params.slots (seen s.co.metas m s.co.metas.length)
      simpa [MsmParams.assigned] using congrArg List.length hlab
    · apply all_taken_serve params_free
      rw [seen_all]
      exact hired.classes.trans (params_classes ▸ List.Perm.refl _)
  · exact ht

theorem wp_isTotally {E : Abort → Loop → Prop} {st : CsmState} {Q : Bool → Loop → Prop}
    (ht : (∀ x ∈ s.co.metas, x.currentMId = m → x.state = st) → Q true s)
    (hf : (¬ ∀ x ∈ s.co.metas, x.currentMId = m → x.state = st) → Q false s) :
    wp (isTotally st m) Q E s := by
  simp only [isTotally, wp_bind, wp_co, wp_pure]
  by_cases h : ∀ x ∈ s.co.metas, x.currentMId = m → x.state = st
  · have hall : (s.co.metas.all fun x => x.currentMId ≠ m || x.state = st) = true := by
      simp only [List.all_eq_true, Bool.or_eq_true, decide_eq_true_eq]
      exact fun x hx => (em (x.currentMId = m)).symm.imp id (h x hx)
    rw [hall]
    exact ht h
  · have hall : (s.co.metas.all fun x => x.currentMId ≠ m || x.state = st) = false := by
      rw [Bool.eq_false_iff]
      intro htrue
      simp only [List.all_eq_true, Bool.or_eq_true, decide_eq_true_eq] at htrue
      exact h fun x hx hcur => (htrue x hx).resolve_left fun hne => hne hcur
    rw [hall]
    exact hf h

/-- A known measurement can always be asked for. -/
theorem wp_assertFillParams {E : Abort → Loop → Prop} (h : Quiet table s.co)
    (hm : m ∈ s.co.known) {Q : MsmParams → Loop → Prop}
    (hQ : ∀ e, s.co.msms.get? m = some e → Hired e (classesOf s.co.metas m) → Q e.params s) :
    wp (assertFillParams m) Q E s := by
  obtain ⟨e, he, hired⟩ := (h.staffed m hm).hired
  have hok : decide (e.dur ≠ 0 ∧ e.hosts ≠ []) = true := by simp [hired.dur, hired.hosts]
  simp only [assertFillParams, fillParams, wp_bind, wp_co, fillMsmParams_eq he hired.nulFree, hok,
    Except.mapError, fromExcept_ok, wp_pure, failIf]
  exact hQ e he hired

/-- Each known measurement has a client. -/
theorem exists_owner {metas : List Meta} (hired : Hired e (classesOf metas m)) :
    ∃ x ∈ metas, x.currentMId = m := by
  by_contra hnone
  have hempty : classesOf metas m = [] := by
    simpa [classesOf, List.filter_eq_nil_iff] using hnone
  have hlen := hired.classes.length_eq
  rw [hempty, List.length_map] at hlen
  exact hired.hosts (List.eq_nil_of_length_eq_zero hlen.symm)

/-- What a stage leaves: everything in order, the same measurements, and either nothing happened or
all clients of `m` wait for the reply of this phase. -/
structure Staged (table : Msms) (m : UInt32) (p : Phase) (s : Coord) (q : MsmParams) (t : Coord)
    (q' : MsmParams) : Prop where
  known : t.known = s.known
  msms : t.msms = s.msms
  slots : q'.slots.length = q.slots.length
  effect : (q' = q ∧ t = s) ∨ ∀ x ∈ t.metas, x.currentMId = m → x.state = p.waits

/-- The stages with an assignment pass. -/
theorem wp_passStage {f : Slot → Option ℕ → Meta → Except Abort (Bool × Bytes × Meta)}
    (hf : ∀ slot, Sends p (slot.nconn ≠ 1) (f slot)) (h : Quiet table s.co) (hm : m ∈ s.co.known)
    (he : s.co.msms.get? m = some e) (hired : Hired e (classesOf s.co.metas m)) {q : MsmParams}
    (hq : (∀ x ∈ s.co.metas, x.currentMId = m → x.state = p.before) → q = e.params) :
    wp (do
      if ← isTotally p.before m then
        passOrFail m p.waits (fun slot => command p (f slot)) q
      else pure (some q)) (fun r t => Quiet table t.co ∧
        ∀ q', r = some q' → Staged table m p s.co q t.co q') (Aborted table) s := by
  rw [wp_bind]
  refine wp_isTotally (fun hall => ?_) fun _ => ?_
  · simp only [↓reduceIte, passOrFail, wp_bind]
    obtain rfl := hq hall
    apply wp_conseq (wp_assignPass hf (h.rest hm) hall he hired)
    rintro (q' | ⟨⟩) t ht
    · obtain ⟨hpass, hlen, htaken⟩ := ht
      obtain ⟨hquiet, hknown, hst⟩ := hpass.finish hm he hired
      have hassert : ¬ ∃ slot ∈ q'.slots, slot.assigned = false := by
        rintro ⟨slot, hslot, hfalse⟩
        rw [htaken slot hslot] at hfalse
        cases hfalse
      simp only [wp_bind, failIf, if_neg hassert, fromExcept_ok, wp_pure]
      refine ⟨hquiet, ?_⟩
      rintro _ ⟨⟩
      exact ⟨hknown, hpass.msms, hlen, .inr hst⟩
    · obtain ⟨hrest, -⟩ := ht
      simp only [wp_bind]
      apply wp_conseq (wp_measurementFailed hrest)
      rintro _ u ⟨hu, -⟩
      exact ⟨hu, by rintro _ ⟨⟩⟩
  · simp only [Bool.false_eq_true, ↓reduceIte, wp_pure]
    refine ⟨h, ?_⟩
    rintro _ ⟨⟩
    exact ⟨rfl, rfl, rfl, .inl ⟨rfl, rfl⟩⟩

theorem wp_connectStage (h : Quiet table s.co) (hm : m ∈ s.co.known)
    (he : s.co.msms.get? m = some e) (hired : Hired e (classesOf s.co.metas m)) :
    wp (connectStage m e.params) (fun r t => Quiet table t.co ∧
      ∀ q, r = some q → Staged table m .connect s.co e.params t.co q) (Aborted table) s :=
  wp_passStage (p := .connect) (fun slot => sends_connect e.params.fp slot.nconn) h hm he hired
    fun _ => rfl

theorem wp_setBwStage (h : Quiet table s.co) (hm : m ∈ s.co.known)
    (he : s.co.msms.get? m = some e) (hired : Hired e (classesOf s.co.metas m)) {q : MsmParams}
    (hq : (∀ x ∈ s.co.metas, x.currentMId = m → x.state = .connectedTarget) → q = e.params) :
    wp (setBwStage m q) (fun r t => Quiet table t.co ∧
      ∀ q', r = some q' → Staged table m .setBw s.co q t.co q') (Aborted table) s :=
  wp_passStage (p := .setBw) (fun slot => sends_setBw _ slot.bw) h hm he hired hq

theorem schedResetFailsafeStop_ok {now : EpochSecs} {a b : Msms}
    (h : schedResetFailsafeStop now m a = .ok b) : (∀ i, b.stateOf i = a.stateOf i) ∧
      ∀ i, (b.get? i).map Measurement.plan = (a.get? i).map Measurement.plan := by
  unfold schedResetFailsafeStop at h
  split at h
  · cases h
  next e he =>
    simp only [bind_eq_ok, pure_eq_ok] at h
    obtain ⟨stop, -, rfl⟩ := h
    constructor
    · intro i
      rw [Msms.stateOf, Msms.get?_update]
      split
      · cases hi : a.get? i <;> simp [Msms.stateOf, hi]
      · rfl
    · intro i
      rw [Msms.get?_update]
      split
      · cases a.get? i <;> simp [Measurement.resetStop, Measurement.plan]
      · rfl

theorem wp_resetFailsafeStop {now : EpochSecs} (h : Rest table m s.co) :
    wp (schedCall fun a => (schedResetFailsafeStop now m a).map fun a => ((), a)) (fun _ t =>
      ∃ msms, t = { s with co := { s.co with msms := msms } } ∧
        (∀ i, msms.stateOf i = s.co.msms.stateOf i) ∧ ∀ i, (msms.get? i).map Measurement.plan =
          (s.co.msms.get? i).map Measurement.plan) (Aborted table) s := by
  cases hr : schedResetFailsafeStop now m s.co.msms with
  | ok b =>
    refine wp_schedCall (fun _ msms hok => ?_) fun pan herr => ?_
    · obtain rfl : b = msms := by simpa [hr, Except.map] using hok
      exact ⟨b, rfl, schedResetFailsafeStop_ok hr⟩
    · simp [hr, Except.map] at herr
  | error pan =>
    refine wp_schedCall (fun _ msms hok => ?_) fun pan' herr => ?_
    · simp [hr, Except.map] at hok
    · obtain rfl : pan = pan' := by simpa [hr, Except.map] using herr
      obtain ⟨e, he, hst⟩ := Option.map_eq_some_iff.mp h.live
      simp only [schedResetFailsafeStop, he, bind_eq_error, pure, Except.pure, reduceCtorEq,
        and_false, exists_false, or_false] at hr
      obtain ⟨rfl, hdur⟩ := failsafeStop_error hr
      obtain ⟨e₀, he₀, hinc, hplan⟩ := h.coherent.loaded_incomplete he (by simp [hst])
      exact h.coherent.aborted ⟨e₀, he₀, hinc, dur_of_plan hplan ▸ hdur⟩ (by rintro ⟨⟩)

/-- One turn of the pass that starts the measuring, with its count of the clients told. -/
theorem wp_startTurn {s₀ : Coord} {j : ℕ} (hj : j < s₀.metas.length)
    (h : Passing table m .measure s₀ j s.co) (dur : UInt32) :
    wp (startTurn m dur j (seen s₀.metas m j).length) (Turn.Post
      (fun told t => Passing table m .measure s₀ (j + 1) t.co ∧
        told = (seen s₀.metas m (j + 1)).length)
      (fun _ t => Rest table m t.co)) (Aborted table) s := by
  have hlt : j < s.co.metas.length := h.length.symm ▸ hj
  have hx := List.getElem?_eq_getElem hlt
  have hx₀ : s₀.metas[j]? = some s₀.metas[j] := List.getElem?_eq_getElem hj
  have hcur' : s.co.metas[j].currentMId = s₀.metas[j].currentMId := by
    have hk := congrArg (·[j]?) h.keys
    simp only [List.getElem?_map, hx, hx₀, Option.map_some, Option.some.injEq] at hk
    exact congrArg Prod.snd hk
  simp only [startTurn, wp_bind, wp_metaAt, hx]
  by_cases hcur : s.co.metas[j].currentMId = m
  · rw [if_pos hcur, wp_bind]
    apply wp_conseq (h.wp_command (sends_measure dur) (fun _ => False.elim) hx hcur)
    rintro (_ | _) u hu
    · simpa using hu.1
    · obtain ⟨hu, y, hy, hyst⟩ := hu
      simp only [not_true_eq_false, ↓reduceIte, wp_bind]
      rw [wp_assertState hy (show y.state = .measuring from hyst)]
      refine ⟨hu, ?_⟩
      rw [seen_succ hx₀, if_pos (hcur'.symm.trans hcur)]
      simp
  · rw [if_neg hcur, wp_pure]
    refine ⟨h.skip hx hcur, ?_⟩
    rw [seen_succ hx₀, if_neg (fun hm' => hcur (hcur'.trans hm')), List.append_nil]

/-- The pass that starts the measuring. -/
theorem wp_startPass (h : Rest table m s.co)
    (hall : ∀ y ∈ s.co.metas, y.currentMId = m → y.state = .bwSet) (dur : UInt32) :
    wp (forRange s.co.metas.length 0 (startTurn m dur)) (Turn.Post
        (fun told t => Passing table m .measure s.co s.co.metas.length t.co ∧
          told = (classesOf s.co.metas m).length)
        (fun _ t => Rest table m t.co)) (Aborted table) s := by
  refine wp_conseq (wp_forRange
    (fun j told t => Passing table m .measure s.co j t.co ∧ told = (seen s.co.metas m j).length)
    (fun _ t => Rest table m t.co) ?_
    ⟨Passing.start (p := .measure) h hall, by simp [seen_zero]⟩) ?_
  · rintro j hj told t ⟨ht, rfl⟩
    exact wp_startTurn hj ht dur
  · rintro (told | ⟨⟩) t ht
    · rwa [seen_all] at ht
    · exact ht

/-- The stage that starts the measuring. -/
theorem wp_startStage (h : Quiet table s.co) (hm : m ∈ s.co.known)
    (he : s.co.msms.get? m = some e) (hired : Hired e (classesOf s.co.metas m)) {q : MsmParams}
    (hq : q.slots.length = e.hosts.length) : wp (startStage m q) (fun ok t => Quiet table t.co ∧
      (ok = true → t.co.known = s.co.known)) (Aborted table) s := by
  rw [startStage, wp_bind]
  refine wp_isTotally (fun hall => ?_) fun _ => ?_
  · rw [if_pos rfl, wp_bind]
    apply wp_answer
    intro a os
    rw [wp_bind]
    apply wp_conseq (wp_resetFailsafeStop (s := { s with os := os }) (h.rest hm))
    rintro _ t ⟨msms, rfl, hst, hplan⟩
    have hrest := (h.rest hm).retable hst hplan
    obtain ⟨e', he', hp⟩ := exists_planned (hplan m) he
    simp only [wp_bind, wp_numMetas]
    refine wp_conseq (wp_startPass (s := { os := os, co := { s.co with msms := msms } }) hrest hall
      q.dur) ?_
    rintro (told | ⟨⟩) t ht
    · obtain ⟨hpass, rfl⟩ := ht
      have htold : (classesOf s.co.metas m).length = q.slots.length := by
        rw [hired.classes.length_eq, List.length_map, hq]
      obtain ⟨hquiet, hknown, -⟩ := hpass.finish hm he' (hired.of_plan hp)
      simp only [wp_bind, failIf, htold, ne_eq, not_true_eq_false, ↓reduceIte, fromExcept_ok,
        wp_pure]
      exact ⟨hquiet, fun _ => hknown⟩
    · simp only [wp_bind]
      apply wp_conseq (wp_measurementFailed ht)
      rintro _ u ⟨hu, -⟩
      exact ⟨hu, fun hok => absurd hok Bool.false_ne_true⟩
  · simp only [Bool.false_eq_true, ↓reduceIte, wp_pure]
    exact ⟨h, fun _ => trivial⟩

/-- The stage that ends a successful measurement, or changes nothing while one of its clients is
not done. -/
theorem wp_doneStage (h : Quiet table s.co) {i : ℕ} (hi : s.co.known[i]? = some m) :
    wp (doneStage i m) (fun removed t => if removed then
        Quiet table t.co ∧ t.co.known = swapRemove s.co.known i ∧
          t.co.metas = s.co.metas.map (Meta.release m)
      else t = s ∧ ¬ ∀ x ∈ s.co.metas, x.currentMId = m → x.state = .done) (Aborted table) s := by
  have hm : m ∈ s.co.known := List.mem_of_getElem? hi
  have hrest := h.rest hm
  rw [doneStage, wp_bind]
  refine wp_isTotally (fun hall => ?_) fun hnot => ?_
  · have hrel : Releases m (fun c => assertState c .done) (Aborted table)
        { s with co := { s.co with trace := s.co.trace ++ [.succeeded m] } } := by
      intro c x t hmem
      exact releases_done (s := s) h.coherent hrest.ne_zero hall c x t hmem
    simp only [↓reduceIte, wp_bind, wp_record, wp_numMetas]
    apply wp_conseq (wp_releaseAll hrel)
    rintro _ t ⟨fds, rfl, hfds⟩
    rw [wp_bind]
    refine wp_markDone ?_ fun msms hdone => ?_
    · exact hrest.live
    have hmv := schedMarkDone_moves hdone
    simp only [wp_modifyCo, wp_bind, wp_pure, ↓reduceIte]
    have hperm := swapRemove_perm hi
    obtain ⟨hnot, hnd⟩ := List.nodup_cons.mp (hperm.nodup_iff.mpr h.nodup)
    refine ⟨hrest.ended (e := .succeeded m) ⟨rfl, hfds, hmv, rfl, rfl⟩ rfl (fun _ => hall) hnd
      (fun k => ?_) ?_, trivial, trivial⟩
    · rw [← hperm.mem_iff, List.mem_cons]
      constructor
      · intro hk
        exact ⟨.inr hk, fun he => hnot (he ▸ hk)⟩
      · rintro ⟨rfl | hk, hne⟩
        · exact absurd rfl hne
        · exact hk
    · exact ⟨by simp [h.counted.failures, Event.isFailed],
        by simp [h.counted.successes, Event.isSucceeded]⟩
  · simp only [Bool.false_eq_true, ↓reduceIte, wp_pure]
    exact ⟨trivial, hnot⟩

theorem length_swapRemove {ids : List UInt32} {i : ℕ} (hi : ids[i]? = some m) :
    (swapRemove ids i).length + 1 = ids.length := by
  simpa using (swapRemove_perm hi).length_eq

/-- One turn of the loop over the known measurements. -/
theorem wp_advanceTurn (h : Quiet table s.co) (i : ℕ) :
    wp (advanceTurn i) (Turn.Post
      (fun i' t => Quiet table t.co ∧ t.co.known.length - i' < s.co.known.length - i)
      (fun _ t => Quiet table t.co)) (Aborted table) s := by
  simp only [advanceTurn, wp_bind, wp_co]
  cases hi : s.co.known[i]? with
  | none => exact h
  | some m =>
    have hm : m ∈ s.co.known := List.mem_of_getElem? hi
    obtain ⟨hlt, -⟩ := List.getElem?_eq_some_iff.mp hi
    simp only [wp_bind]
    apply wp_assertFillParams h hm
    intro e he hired
    rw [wp_bind]
    apply wp_conseq (wp_connectStage h hm he hired)
    rintro (_ | q) t ⟨ht, hstaged⟩
    · exact ht
    have h₁ := hstaged q rfl
    have hm₁ : m ∈ t.co.known := h₁.known ▸ hm
    have he₁ : t.co.msms.get? m = some e := h₁.msms ▸ he
    have hired₁ := ht.hired hm₁ he₁
    -- after its own pass the first stage has excluded the second one
    have hq : (∀ x ∈ t.co.metas, x.currentMId = m → x.state = .connectedTarget) →
        q = e.params := by
      intro hall
      rcases h₁.effect with ⟨rfl, -⟩ | htold
      · rfl
      · obtain ⟨x, hx, hcur⟩ := exists_owner hired₁
        have hst := hall x hx hcur
        rw [htold x hx hcur] at hst
        cases hst
    simp only [wp_bind]
    apply wp_conseq (wp_setBwStage ht hm₁ he₁ hired₁ hq)
    rintro (_ | q') u ⟨hu, hstaged'⟩
    · exact hu
    have h₂ := hstaged' q' rfl
    have hm₂ : m ∈ u.co.known := h₂.known ▸ hm₁
    have he₂ : u.co.msms.get? m = some e := h₂.msms ▸ he₁
    have hired₂ := hu.hired hm₂ he₂
    have hlen : q'.slots.length = e.hosts.length := by
      rw [h₂.slots, h₁.slots]
      simp [Measurement.params]
    simp only [wp_bind]
    apply wp_conseq (wp_startStage hu hm₂ he₂ hired₂ hlen)
    rintro (_ | _) v ⟨hv, hknown⟩
    · simpa using hv
    have hk : v.co.known = s.co.known := by rw [hknown rfl, h₂.known, h₁.known]
    simp only [not_true_eq_false, ↓reduceIte, wp_bind]
    apply wp_conseq (wp_doneStage hv (hk ▸ hi))
    rintro (_ | _) w hw
    · simp only [Bool.false_eq_true, ↓reduceIte] at hw
      obtain ⟨rfl, -⟩ := hw
      refine ⟨hv, ?_⟩
      rw [hk]
      omega
    · simp only [↓reduceIte] at hw
      obtain ⟨hw, hknown', -⟩ := hw
      refine ⟨hw, ?_⟩
      have hlen' := length_swapRemove hi
      rw [hknown', hk]
      omega

theorem wp_advance (h : Quiet table s.co) :
    wp advance (fun _ t => Quiet table t.co) (Aborted table) s := by
  simp only [advance, wp_bind, wp_co]
  exact wp_whileFuel (fun _ t => Quiet table t.co) (fun i t => t.co.known.length - i)
    (fun i t ht => wp_advanceTurn ht i) (by omega) h

end Flashflow
