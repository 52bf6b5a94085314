import Flashflow.Loop.Ops

/-! The passes over the clients of one measurement: each sends the command of one phase to all of
them, or stops where a command cannot be sent. -/
namespace Flashflow
open Sched Program Arrays Outcome

/-- `f` sends the command of the phase `p`: afterwards the client waits for the reply if the
command went out, and is unchanged if not. Only the assertion about background clients can fail,
and only for such a client, where the number of connections is `wrong`. -/
def Sends (p : Phase) (wrong : Prop)
    (f : Option ℕ → Meta → Except Abort (Bool × Bytes × Meta)) : Prop :=
  ∀ (sent : Option ℕ) (x : Meta), x.state = p.before →
    (∃ ok msg, f sent x = .ok (ok, msg, if ok then { x with state := p.waits } else x)) ∨
    (f sent x = .error .assertBgConns ∧ x.isBg = true ∧ wrong)

theorem sends_auth : Sends .auth False tcAuthSocket := by
  intro sent x hst
  replace hst : x.state = .connected := hst
  have hallow : x.state.allows .authing = true := by rw [hst]; rfl
  simp only [tcAuthSocket, tcAssertState_eq hst]
  exact .inl (sendCommand_spec hallow sent)

theorem sends_connect (fp : Bytes) (conns : UInt32) :
    Sends .connect (conns ≠ 1) (tcTellConnect fp conns) := by
  intro sent x hst
  replace hst : x.state = .authed := hst
  have hallow : x.state.allows .toldConnectTarget = true := by rw [hst]; rfl
  by_cases hbg : x.isBg = true ∧ conns ≠ 1
  · refine .inr ⟨?_, hbg⟩
    simp only [tcTellConnect, tcAssertState_eq hst, failIf, if_pos hbg]
    rfl
  · simp only [tcTellConnect, tcAssertState_eq hst, failIf, if_neg hbg]
    exact .inl (sendCommand_spec hallow sent)

theorem sends_setBw (wrong : Prop) (bw : UInt32) : Sends .setBw wrong (tcSetBwRate bw) := by
  intro sent x hst
  replace hst : x.state = .connectedTarget := hst
  have hallow : x.state.allows .settingBw = true := by rw [hst]; rfl
  simp only [tcSetBwRate, tcAssertState_eq hst]
  exact .inl (sendCommand_spec hallow sent)

theorem sends_measure (dur : UInt32) : Sends .measure False (tcStartMeasurement dur) := by
  intro sent x hst
  replace hst : x.state = .bwSet := hst
  have hallow : x.state.allows .measuring = true := by rw [hst]; rfl
  exact .inl (sendCommand_spec hallow sent)

section
variable {table : Msms} {s : Loop} {m : UInt32} {c : ℕ} {x : Meta} {p : Phase}

theorem wp_command {wrong : Prop} {f : Option ℕ → Meta → Except Abort (Bool × Bytes × Meta)}
    (hf : Sends p wrong f) (hbg : x.isBg = true → wrong → Mismatch table s.co)
    (h : Coherent table s.co) (hx : s.co.metas[c]? = some x) (hst : x.state = p.before) :
    wp (command p f c) (fun ok t =>
      t.co = if ok then s.co.move c x p.waits (.sent c x.currentMId p) else s.co)
      (Aborted table) s := by
  rw [command, wp_bind]
  refine wp_answer fun a os => ?_
  simp only [wp_bind, wp_metaAt, hx]
  rcases hf a.sent x hst with ⟨ok, msg, hok⟩ | ⟨herr, hisBg, hwrong⟩
  · simp only [hok, fromExcept_ok, wp_pure, wp_bind, wp_setMeta]
    cases ok with
    | false => simp [set_same hx]
    | true => simp [Coord.move]
  · simp only [herr, fromExcept_error, wp_abort]
    exact ⟨trivial, fun _ => hbg hisBg hwrong, h.strays, _, h.runs⟩

/-! A pass from `s₀` on, before client `j`: the clients of `m` in front of it wait for their
replies, the others are still in the state before. -/

def Meta.key (x : Meta) : Bytes × UInt32 := (x.cls, x.currentMId)

structure Passing (table : Msms) (m : UInt32) (p : Phase) (s₀ : Coord) (j : ℕ) (s : Coord) :
    Prop where
  rest : Rest table m s
  states : ∀ (i : ℕ) (x : Meta), s.metas[i]? = some x → x.currentMId = m →
    x.state = if i < j then p.waits else p.before
  others : ∀ (i : ℕ) (x : Meta), s₀.metas[i]? = some x → x.currentMId ≠ m → s.metas[i]? = some x
  keys : s.metas.map Meta.key = s₀.metas.map Meta.key
  msms : s.msms = s₀.msms
  known : s.known = s₀.known

variable {s₀ : Coord} {j : ℕ}

theorem Passing.start (h : Rest table m s₀)
    (hall : ∀ x ∈ s₀.metas, x.currentMId = m → x.state = p.before) :
    Passing table m p s₀ 0 s₀ where
  rest := h
  states i x hx hcur := by simpa using hall x (List.mem_of_getElem? hx) hcur
  others _ _ hx _ := hx
  keys := rfl
  msms := rfl
  known := rfl

theorem Passing.length {s : Coord} (h : Passing table m p s₀ j s) :
    s.metas.length = s₀.metas.length := by
  simpa using congrArg List.length h.keys

/-- A client of another measurement is passed over. -/
theorem Passing.skip {s : Coord} (h : Passing table m p s₀ j s) (hx : s.metas[j]? = some x)
    (hcur : x.currentMId ≠ m) : Passing table m p s₀ (j + 1) s := by
  refine ⟨h.rest, fun i y hy hym => ?_, h.others, h.keys, h.msms, h.known⟩
  have hij : i ≠ j := by
    rintro rfl
    rw [hx] at hy
    exact hcur (Option.some.inj hy ▸ hym)
  have hlt : i < j + 1 ↔ i < j := by omega
  simpa only [hlt] using h.states i y hy hym

theorem Passing.sent {s : Coord} (h : Passing table m p s₀ j s) (hx : s.metas[j]? = some x)
    (hcur : x.currentMId = m) :
    Passing table m p s₀ (j + 1) (s.move j x p.waits (.sent j m p)) := by
  have hst : x.state = p.before := by simpa using h.states j x hx hcur
  refine ⟨h.rest.sent hx hcur hst fun y hy hym => ?_, fun i y hy hym => ?_, fun i y hy hym => ?_,
    ?_, h.msms, h.known⟩
  · obtain ⟨i, hi⟩ := List.mem_iff_getElem?.mp hy
    have hs := h.states i y hi hym
    split at hs
    · exact .inr hs
    · exact .inl hs
  · rcases of_getElem?_set hy with ⟨rfl, rfl⟩ | ⟨hne, hy⟩
    · simp
    · have hlt : i < j + 1 ↔ i < j := by omega
      simpa only [hlt] using h.states i y hy hym
  · have hy' := h.others i y hy hym
    have hij : j ≠ i := by
      rintro rfl
      rw [hx] at hy'
      exact hym (Option.some.inj hy' ▸ hcur)
    simpa [Coord.move, hij] using hy'
  · exact (map_set_same Meta.key (y := { x with state := p.waits }) hx rfl).trans h.keys

theorem classesOf_keys (metas : List Meta) (m : UInt32) :
    classesOf metas m = ((metas.map Meta.key).filter fun k => k.2 = m).map Prod.fst := by
  induction metas with
  | nil => rfl
  | cons x metas ih =>
    rw [classesOf] at ih ⊢
    simp only [List.map_cons, List.filter_cons, Meta.key]
    split <;> simpa [Meta.key] using ih

/-- At the end of a pass the measurement is in order again, in the phase of the pass. -/
theorem Passing.finish {s : Coord} {e : Measurement} (h : Passing table m p s₀ s₀.metas.length s)
    (hm : m ∈ s₀.known) (he : s₀.msms.get? m = some e) (hired : Hired e (classesOf s₀.metas m)) :
    Quiet table s ∧ s.known = s₀.known ∧
      ∀ x ∈ s.metas, x.currentMId = m → x.state = p.waits := by
  have hall : ∀ x ∈ s.metas, x.currentMId = m → x.state = p.waits := by
    intro x hx hcur
    obtain ⟨i, hi⟩ := List.mem_iff_getElem?.mp hx
    obtain ⟨hlt, -⟩ := List.getElem?_eq_some_iff.mp hi
    have hs := h.states i x hi hcur
    rwa [if_pos (h.length ▸ hlt)] at hs
  refine ⟨h.rest.quiet (h.known ▸ hm) ⟨⟨e, h.msms ▸ he, ?_⟩, p, fun x hx hcur => .inl ?_⟩,
    h.known, hall⟩
  · rwa [classesOf_keys, h.keys, ← classesOf_keys]
  · exact hall x hx hcur

/-- One turn of a pass, for a client of the measurement. -/
theorem Passing.wp_command {wrong : Prop}
    {f : Option ℕ → Meta → Except Abort (Bool × Bytes × Meta)} (hf : Sends p wrong f)
    (hbg : x.isBg = true → wrong → Mismatch table s.co) (h : Passing table m p s₀ j s.co)
    (hx : s.co.metas[j]? = some x) (hcur : x.currentMId = m) :
    wp (command p f j) (fun ok t => if ok then
        Passing table m p s₀ (j + 1) t.co ∧ ∃ y, t.co.metas[j]? = some y ∧ y.state = p.waits
      else Rest table m t.co ∧ t.co.known = s₀.known) (Aborted table) s := by
  have hst : x.state = p.before := by simpa using h.states j x hx hcur
  refine wp_conseq (Flashflow.wp_command hf hbg h.rest.coherent hx hst) fun ok t ht => ?_
  obtain ⟨hlt, -⟩ := List.getElem?_eq_some_iff.mp hx
  cases ok with
  | false =>
    simp only [Bool.false_eq_true, ↓reduceIte] at ht ⊢
    rw [ht]
    exact ⟨h.rest, h.known⟩
  | true =>
    simp only [↓reduceIte] at ht ⊢
    rw [ht, hcur]
    exact ⟨h.sent hx hcur, { x with state := p.waits }, by simp [Coord.move, hlt], rfl⟩

end
end Flashflow
