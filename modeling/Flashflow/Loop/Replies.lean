import Flashflow.Loop.Stages
import Flashflow.Torclient.Buffer

/-! The replies: a handler confirms a phase for one client, or the measurement is failed. Over a
batch of events no client changes before its own event is handled. -/
namespace Flashflow
open Sched Program Arrays Outcome

variable {table : Msms} {s : Loop} {c : ℕ} {x : Meta} {p : Phase}

/-- `f` reads the reply that confirms the phase `p`: afterwards the client has reached the end of
the phase, or is unchanged if the reply was not the right one. It may run over its buffer. -/
def Confirms (p : Phase) (f : Option Bytes → (ℕ → UInt8) → Meta → Except Abort (Bool × Meta)) :
    Prop :=
  ∀ (recv : Option Bytes) (stale : ℕ → UInt8) (x : Meta), x.state = p.waits →
    f recv stale x = .ok (false, x) ∨ f recv stale x = .ok (true, { x with state := p.reached }) ∨
    f recv stale x = .error .outOfBounds ∧ ∃ got, recv = some got ∧ readBufLen ≤ got.length

theorem confirms_auth : Confirms .auth tcAuthedSocket :=
  fun _ _ _ hst => awaitReply_spec hst rfl

theorem confirms_connect : Confirms .connect tcConnectedSocket :=
  fun _ _ _ hst => awaitReply_spec hst rfl

theorem confirms_setBw : Confirms .setBw tcDidSetBwRate :=
  fun _ _ _ hst => awaitReply_spec hst rfl

theorem Phase.waits_injective {p q : Phase} (h : p.waits = q.waits) : p = q := by
  cases p <;> cases q <;> first | rfl | cases h

theorem Phase.reached_ne_waits (p q : Phase) : p.reached ≠ q.waits := by
  cases p <;> cases q <;> decide

/-- A client that waits for something belongs to a known measurement. -/
theorem Quiet.known_of_waits {s : Coord} (h : Quiet table s) (hx : s.metas[c]? = some x)
    (hst : x.state = p.waits) : x.currentMId ∈ s.known := by
  have hmem := List.mem_of_getElem? hx
  have hcur : x.currentMId ≠ 0 := by
    intro h0
    have hidle := (h.coherent.idle hmem h0).2.1
    rw [hst] at hidle
    cases p <;> cases hidle
  exact (h.known_iff _).mpr (h.coherent.owner_live hmem hcur)

/-- A confirmation keeps everything in order. -/
theorem Quiet.confirmed {s : Coord} (h : Quiet table s) (hx : s.metas[c]? = some x)
    (hst : x.state = p.waits) :
    Quiet table (s.move c x p.reached (.confirmed c x.currentMId p)) := by
  have hmem := List.mem_of_getElem? hx
  have hm := h.known_of_waits hx hst
  have hrest := (h.rest hm).confirmed hx rfl hst
  obtain ⟨⟨e, he, hired⟩, q, hq⟩ := h.staffed _ hm
  refine hrest.quiet hm ⟨⟨e, he, ?_⟩, p, fun y hy hyc => ?_⟩
  · rw [classesOf_move hx]
    exact hired
  · have hqp : q = p := by
      rcases hq x hmem rfl with hs | hs <;> rw [hst] at hs
      · exact (Phase.waits_injective hs).symm
      · exact absurd hs.symm (Phase.reached_ne_waits q p)
    rcases mem_set hy with hy | rfl
    · exact hqp ▸ hq y hy hyc
    · exact .inr rfl

/-- After a reply: everything is in order and no other client has changed, or the measurement is to
be failed. -/
structure Replied (table : Msms) (c : ℕ) (s t : Coord) : Prop where
  quiet : Quiet table t
  others : ∀ i, i ≠ c → t.metas[i]? = s.metas[i]?

theorem Quiet.replied {s : Coord} (h : Quiet table s) (c : ℕ) : Replied table c s s :=
  ⟨h, fun _ _ => rfl⟩

theorem Quiet.replied_confirmed {s : Coord} (h : Quiet table s) (hx : s.metas[c]? = some x)
    (hst : x.state = p.waits) :
    Replied table c s (s.move c x p.reached (.confirmed c x.currentMId p)) :=
  ⟨h.confirmed hx hst, fun i hi => by simp [Coord.move, Ne.symm hi]⟩

theorem wp_reply {f : Option Bytes → (ℕ → UInt8) → Meta → Except Abort (Bool × Meta)}
    (hf : Confirms p f) (h : Quiet table s.co) (hx : s.co.metas[c]? = some x)
    (hst : x.state = p.waits) :
    wp (reply p f c) (fun ok t => t.co =
      if ok then s.co.move c x p.reached (.confirmed c x.currentMId p) else s.co)
      (Aborted table) s := by
  rw [reply, wp_bind]
  apply wp_answer_script
  intro k os hos htick
  simp only [wp_bind, wp_metaAt, hx]
  rcases hf ((s.os.script k).recv.map (·.take readBufLen)) (s.os.script k).stale x hst with
    hno | hyes | ⟨herr, got, hgot, hlen⟩
  · simp [hno, set_same hx]
  · simp [hyes, Coord.move]
  · simp only [herr, fromExcept_error, wp_abort]
    obtain ⟨full, hfull, rfl⟩ := Option.map_eq_some_iff.mp hgot
    have hover : readBufLen ≤ full.length := hlen.trans (List.length_take_le' _ _)
    exact ⟨⟨k, htick, full, hos ▸ hfull, .inl hover⟩, by rintro ⟨⟩, h.coherent.strays, _,
      h.coherent.runs⟩

/-- One of the first three handlers, with what follows it. -/
theorem wp_onReply {f : Option Bytes → (ℕ → UInt8) → Meta → Except Abort (Bool × Meta)}
    (hf : Confirms p f) (h : Quiet table s.co) (hx : s.co.metas[c]? = some x)
    (hst : x.state = p.waits) :
    wp (onReply p.reached (reply p f) c) (fun ok t => Quiet table t.co ∧
      (ok = true → Replied table c s.co t.co)) (Aborted table) s := by
  obtain ⟨hlt, -⟩ := List.getElem?_eq_some_iff.mp hx
  rw [onReply, wp_bind]
  apply wp_conseq (wp_reply hf h hx hst)
  rintro (_ | _) t ht
  · simp only [Bool.false_eq_true, ↓reduceIte] at ht
    simp only [Bool.false_eq_true, not_false_eq_true, ↓reduceIte, wp_bind, wp_metaAt, ht, hx]
    have hrest := h.rest (h.known_of_waits hx hst)
    apply wp_conseq (wp_measurementFailed (s := t) (ht ▸ hrest))
    rintro _ u ⟨hu, -⟩
    exact ⟨hu, fun hok => absurd hok Bool.false_ne_true⟩
  · simp only [↓reduceIte] at ht
    have hy : t.co.metas[c]? = some { x with state := p.reached } := by
      rw [ht]
      simp [Coord.move, hlt]
    simp only [not_true_eq_false, ↓reduceIte, wp_bind]
    rw [wp_assertState hy rfl, wp_pure, ht]
    exact ⟨h.confirmed hx hst, fun _ => h.replied_confirmed hx hst⟩

theorem overruns_of_tcOutputResult {a : Answer} {id : UInt32} {fp : Bytes}
    (h : tcOutputResult id fp a.time (a.recv.map (·.take readBufLen)) x = .error .outOfBounds) :
    a.Overruns := by
  cases htime : a.time with
  | none =>
    rw [htime] at h
    cases h
  | some t =>
    cases hrecv : a.recv with
    | none =>
      rw [htime, hrecv] at h
      cases h
    | some got =>
      rw [htime, hrecv, Option.map_some] at h
      have hout := fun hin => tcOutputResult_in_range_iff.mpr hin h
      refine ⟨got, hrecv, or_iff_not_imp_left.mpr fun hlt => ?_⟩
      have hlt : got.length < readBufLen := Nat.lt_of_not_le hlt
      rw [List.take_of_length_le hlt.le] at hout
      exact ⟨fun hnil => hout (.inl hnil), by simpa [hlt] using fun hin => hout (.inr hin)⟩

/-- The fourth handler writes results; the client is done when they are complete. -/
theorem wp_outputResult {q : MsmParams} (h : Quiet table s.co) (hx : s.co.metas[c]? = some x)
    (hst : x.state = .measuring) :
    wp (outputResult q c) (fun ok t => t.co = s.co ∨ ok = true ∧
      t.co = s.co.move c x .done (.confirmed c x.currentMId .measure)) (Aborted table) s := by
  rw [outputResult, wp_bind]
  apply wp_answer_script
  intro k os hos htick
  simp only [wp_bind, wp_metaAt, hx]
  have hout := tcOutputResult_spec q.id q.fp (s.os.script k).time
    ((s.os.script k).recv.map (·.take readBufLen)) hst
  rcases hout with hno | ⟨lines, hsome⟩ | ⟨lines, hdone⟩ | herr
  · simp [hno, hst, set_same hx]
  · simp [hsome, hst, set_same hx]
  · simp [hdone, Coord.move]
  · simp only [herr, fromExcept_error, wp_abort]
    have hover := overruns_of_tcOutputResult herr
    exact ⟨⟨k, htick, hos ▸ hover⟩, by rintro ⟨⟩, h.coherent.strays, _, h.coherent.runs⟩

/-- A descriptor of a client is in the set for the client's state only. -/
theorem mem_fdsIn {s : Coord} (h : Coherent table s) (hx : s.metas[c]? = some x) (hfd : 0 ≤ x.fd)
    (st : CsmState) : x.fd ∈ fdsIn st s.metas ↔ x.state = st := by
  simp only [fdsIn, List.mem_map, List.mem_filter, decide_eq_true_eq]
  constructor
  · rintro ⟨y, ⟨hy, rfl⟩, hyx⟩
    obtain ⟨i, hi⟩ := List.mem_iff_getElem?.mp hy
    obtain rfl := h.fds c i x y hx hi hyx.symm hfd
    rw [hx] at hi
    rw [Option.some.inj hi]
  · exact fun hst => ⟨x, ⟨List.mem_of_getElem? hx, hst⟩, rfl⟩

theorem Coherent.fd_of_waits {s : Coord} (h : Coherent table s) (hx : x ∈ s.metas)
    (hst : x.state = p.waits) : 0 ≤ x.fd := by
  rcases h.clients x hx with hidle | hwork
  · rw [hidle.2.1] at hst
    cases p <;> cases hst
  · exact hwork.2.2

/-- One event of a batch. The descriptor sets are those of `s₀`, at the start of the batch. -/
theorem wp_handleEvent {s₀ : Coord} (h₀ : Coherent table s₀) (h : Quiet table s.co)
    (hx₀ : s₀.metas[c]? = some x) (hx : s.co.metas[c]? = some x) (hst : x.state = p.waits) :
    wp (handleEvent (fdSets s₀.metas) c) (fun ok t => Quiet table t.co ∧
      (ok = true → Replied table c s.co t.co)) (Aborted table) s := by
  have hfd := h.coherent.fd_of_waits (List.mem_of_getElem? hx) hst
  simp only [handleEvent, wp_bind, wp_metaAt, hx, fdSets, mem_fdsIn h₀ hx₀ hfd, hst]
  cases p with
  | auth => exact wp_onReply confirms_auth h hx hst
  | connect => exact wp_onReply confirms_connect h hx hst
  | setBw => exact wp_onReply confirms_setBw h hx hst
  | measure =>
    have hm := h.known_of_waits hx hst
    simp only [Phase.waits, reduceCtorEq, ↓reduceIte, wp_bind]
    apply wp_assertFillParams h hm
    intro e he hired
    rw [wp_bind]
    apply wp_conseq (wp_outputResult h hx hst)
    rintro (_ | _) t ht
    · have heq : t.co = s.co := ht.resolve_right fun hok => absurd hok.1 Bool.false_ne_true
      simp only [Bool.false_eq_true, not_false_eq_true, ↓reduceIte, wp_bind, wp_metaAt, heq, hx]
      apply wp_conseq (wp_measurementFailed (s := t) (heq ▸ h.rest hm))
      rintro _ u ⟨hu, -⟩
      exact ⟨hu, fun hok => absurd hok Bool.false_ne_true⟩
    · simp only [not_true_eq_false, ↓reduceIte, wp_pure]
      rcases ht with heq | ⟨-, heq⟩
      · rw [heq]
        exact ⟨h, fun _ => h.replied c⟩
      · rw [heq]
        exact ⟨h.confirmed hx hst, fun _ => h.replied_confirmed hx hst⟩

/-- Each descriptor still to be handled belongs to a client that has not changed since the start of
the batch and waits for something. -/
def Pending (s₀ s : Coord) (fds : List Int) : Prop :=
  ∀ fd ∈ fds, ∃ (c : ℕ) (x : Meta) (p : Phase), s₀.metas[c]? = some x ∧ s.metas[c]? = some x ∧
    x.fd = fd ∧ x.state = p.waits

theorem mem_interesting_iff {fd : Int} {metas : List Meta} :
    fd ∈ (fdSets metas).interesting ↔ ∃ p : Phase, fd ∈ fdsIn p.waits metas := by
  simp only [FdSets.interesting, fdSets, List.mem_append]
  constructor
  · rintro (((hin | hin) | hin) | hin)
    · exact ⟨.auth, hin⟩
    · exact ⟨.connect, hin⟩
    · exact ⟨.setBw, hin⟩
    · exact ⟨.measure, hin⟩
  · rintro ⟨_ | _ | _ | _, hin⟩
    · exact .inl (.inl (.inl hin))
    · exact .inl (.inl (.inr hin))
    · exact .inl (.inr hin)
    · exact .inr hin

theorem pending_start {s : Coord} {fds : List Int}
    (h : ∀ fd ∈ fds, fd ∈ (fdSets s.metas).interesting) : Pending s s fds := by
  intro fd hfd
  obtain ⟨p, hin⟩ := mem_interesting_iff.mp (h fd hfd)
  obtain ⟨x, hx, rfl⟩ := List.mem_map.mp hin
  obtain ⟨hmem, hst⟩ := List.mem_filter.mp hx
  obtain ⟨c, hc⟩ := List.mem_iff_getElem?.mp hmem
  exact ⟨c, x, p, hc, hc, rfl, by simpa using hst⟩

/-- The events after the first one, once it has been handled. -/
theorem Pending.tail {s₀ s t : Coord} {fds : List Int} (h : Pending s₀ s (x.fd :: fds))
    (hx : s.metas[c]? = some x) (hnew : x.fd ∉ fds) (hrep : Replied table c s t) :
    Pending s₀ t fds := by
  intro fd hfd
  obtain ⟨i, y, q, hy₀, hy, rfl, hq⟩ := h fd (List.mem_cons_of_mem _ hfd)
  have hic : i ≠ c := by
    rintro rfl
    rw [hx] at hy
    exact hnew (Option.some.inj hy ▸ hfd)
  exact ⟨i, y, q, hy₀, (hrep.others i hic).trans hy, rfl, hq⟩

/-- No event is lost and none is for an unknown descriptor: the loop over them never returns -1. -/
theorem wp_handleEvents {s₀ : Coord} (h₀ : Coherent table s₀) {fds : List Int} (hnd : fds.Nodup)
    (h : Quiet table s.co) (hp : Pending s₀ s.co fds) :
    wp (handleEvents (fdSets s₀.metas) fds) (fun ok t => ok = true ∧ Quiet table t.co)
      (Aborted table) s := by
  induction fds generalizing s with
  | nil => exact ⟨rfl, h⟩
  | cons fd rest ih =>
    obtain ⟨hnew, hrest⟩ := List.nodup_cons.mp hnd
    obtain ⟨c, x, p, hx₀, hx, rfl, hst⟩ := hp fd List.mem_cons_self
    have hfd := h.coherent.fd_of_waits (List.mem_of_getElem? hx) hst
    have hfind : s.co.metas.findIdx? (fun y => y.fd = x.fd) = some c := by
      obtain ⟨hlt, hget⟩ := List.getElem?_eq_some_iff.mp hx
      refine List.findIdx?_eq_some_iff_getElem.mpr ⟨hlt, by simp [hget], fun j hj => ?_⟩
      have hj' := List.getElem?_eq_getElem (hj.trans hlt)
      simp only [decide_eq_true_eq]
      intro heq
      exact absurd (h.coherent.fds j c _ x hj' hx heq (heq ▸ hfd)) (Nat.ne_of_lt hj)
    simp only [handleEvents, wp_bind, wp_co, hfind]
    apply wp_conseq (wp_handleEvent h₀ h hx₀ hx hst)
    rintro (_ | _) t ⟨ht, hrep⟩
    · exact ⟨rfl, ht⟩
    · simp only [not_true_eq_false, ↓reduceIte]
      exact ih hrest ht (hp.tail hx hnew (hrep rfl))

/-- `epoll_wait` reports registered descriptors, none of them twice. -/
theorem wp_epollWait {E : Abort → Loop → Prop} {fds : List Int} :
    wp (epollWait fds) (fun r t => t.co = s.co ∧ ∀ ready, r = some ready →
      ready.Nodup ∧ ∀ fd ∈ ready, fd ∈ fds) E s := by
  rw [epollWait, wp_bind]
  refine wp_answer fun a os => ⟨rfl, fun ready hready => ?_⟩
  obtain ⟨l, -, rfl⟩ := Option.map_eq_some_iff.mp hready
  have hsub := List.take_sublist maxNumCtrlSocks (l.filter (· ∈ fds)).dedup
  refine ⟨hsub.nodup (List.nodup_dedup _), fun fd hfd => ?_⟩
  simpa using (List.mem_filter.mp (List.mem_dedup.mp (hsub.subset hfd))).2

theorem wp_pollStage (h : Quiet table s.co) :
    wp pollStage (fun ok t => ok = true ∧ Quiet table t.co) (Aborted table) s := by
  rw [pollStage, wp_bind, wp_co, wp_ite]
  refine ⟨fun _ => ⟨rfl, h⟩, fun _ => ?_⟩
  rw [wp_bind]
  apply wp_conseq wp_epollWait
  rintro r t ⟨ht, hready⟩
  have hq : Quiet table t.co := ht ▸ h
  split
  · exact ⟨rfl, hq.loops _⟩
  · exact ⟨rfl, hq.loops _⟩
  next fds _ =>
    obtain ⟨hnd, hmem⟩ := hready fds rfl
    have hp : Pending s.co t.co fds := by
      rw [ht]
      exact pending_start hmem
    rw [wp_bind, wp_modifyCo]
    exact wp_handleEvents h.coherent hnd (hq.loops 0) hp

end Flashflow
