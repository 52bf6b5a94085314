import Flashflow.Loop.Footprint
import Flashflow.Loop.Sockets

/-! The descriptors that are open in a whole run. The loop closes only what it has opened, and what
stays open afterwards are the sockets of failed connection attempts. -/
namespace Flashflow
open Sched Program Arrays Outcome Allocation

/-- Time goes on, and if the descriptors were in order nothing is opened or closed for nobody. -/
structure Loop.Keeping (s t : Loop) : Prop extends Loop.Later s t where
  kept : Held s.co → Kept s t

section
variable {s t u : Loop} {c : ℕ} {x : Meta}

instance : IsPreorder Loop Loop.Keeping where
  refl s := ⟨refl_of Loop.Later s, fun h => ⟨h, rfl⟩⟩
  trans s t u h h' := by
    refine ⟨trans_of Loop.Later h.toLater h'.toLater, fun hs => ?_⟩
    obtain ⟨ht, hst⟩ := h.kept hs
    obtain ⟨hu, htu⟩ := h'.kept ht
    exact ⟨hu, htu.trans hst⟩

/-- Nothing is opened or closed. -/
theorem keeping_of_eq (h : s.Later t) (hmetas : t.co.metas = s.co.metas)
    (hfds : t.co.openFds = s.co.openFds) : s.Keeping t :=
  ⟨h, fun hs => Kept.congr ⟨hs, rfl⟩ hmetas hfds⟩

theorem keeping_answer : Keeps Loop.Keeping answer :=
  fun _ => keeping_of_eq ⟨rfl, Nat.le_succ _⟩ rfl rfl

theorem keeping_record (e : Event) : Keeps Loop.Keeping (record e) :=
  fun _ => keeping_of_eq ⟨rfl, le_rfl⟩ rfl rfl

/-- An operation that moves client `c` on, but neither connects nor closes it. -/
theorem keeping_replace {α β : Type} {f : Meta → Except Abort α} {h : Meta → α → LoopM β}
    (hh : ∀ x r, f x = .ok r → ∃ y k st, MovesTo st x y ∧ st ≠ .invalid ∧ st ≠ .connected ∧
      Keeps Loop.Keeping k ∧ h x r = (do setMeta c y; k)) : Keeps Loop.Keeping (do
        let x ← metaAt c
        let r ← fromExcept (f x)
        h x r) := by
  refine keeps_of_wp fun s => ?_
  simp only [wp_bind, wp_metaAt]
  cases hx : s.co.metas[c]? with
  | none => exact refl_of Loop.Keeping s
  | some x =>
    simp only
    cases hr : f x with
    | error e => exact refl_of Loop.Keeping s
    | ok r =>
      obtain ⟨y, k, st, hmoves, hinv, hcon, hk, heq⟩ := hh x r hr
      rw [fromExcept_ok, wp_pure, heq, wp_bind, wp_setMeta]
      have hset : s.Keeping { s with co := { s.co with metas := s.co.metas.set c y } } :=
        ⟨⟨rfl, le_rfl⟩, fun hs => hs.kept_moves hx hmoves hinv hcon⟩
      refine wp_mono (wp_of_keeps hk _) ?_ ?_
      all_goals exact fun _ _ ht => trans_of Loop.Keeping hset ht

theorem keeping_recorded (b : Bool) (e : Event) : Keeps Loop.Keeping (do
    if b then record e
    pure b) :=
  keeps_ite (keeps_bind (keeping_record e) fun _ => keeps_pure _) (keeps_pure _)

theorem keeping_command {p : Phase} {f : Option ℕ → Meta → Except Abort (Bool × Bytes × Meta)}
    (hf : ∀ {sent x ok msg y}, f sent x = .ok (ok, msg, y) → MovesTo p.waits x y) (c : ℕ) :
    Keeps Loop.Keeping (command p f c) := by
  refine keeps_bind keeping_answer fun a => keeping_replace fun x r hr => ?_
  obtain ⟨ok, msg, y⟩ := r
  exact ⟨y, _, _, hf hr, by cases p <;> decide, by cases p <;> decide, keeping_recorded _ _, rfl⟩

theorem keeping_reply {p : Phase}
    {f : Option Bytes → (ℕ → UInt8) → Meta → Except Abort (Bool × Meta)}
    (hf : ∀ {recv stale x ok y}, f recv stale x = .ok (ok, y) → MovesTo p.reached x y) (c : ℕ) :
    Keeps Loop.Keeping (reply p f c) := by
  refine keeps_bind keeping_answer fun a => keeping_replace fun x r hr => ?_
  obtain ⟨ok, y⟩ := r
  exact ⟨y, _, _, hf hr, by cases p <;> decide, by cases p <;> decide, keeping_recorded _ _, rfl⟩

theorem keeping_outputResult (q : MsmParams) (c : ℕ) : Keeps Loop.Keeping (outputResult q c) := by
  refine keeps_bind keeping_answer fun a => keeping_replace fun x r hr => ?_
  obtain ⟨ok, lines, y⟩ := r
  refine ⟨y, _, _, tcOutputResult_moves hr, by decide, by decide, ?_, rfl⟩
  refine keeps_bind (fun s => keeping_of_eq ⟨rfl, le_rfl⟩ rfl rfl) fun _ => ?_
  exact keeps_ite (keeps_bind (keeping_record _) fun _ => keeps_pure _) (keeps_pure _)

theorem keeping_markFailed (c : ℕ) : Keeps Loop.Keeping (markFailed c) := by
  refine keeping_replace fun x y hr => ?_
  exact ⟨y, pure (), _, tcChangeState_moves hr, by decide, by decide, keeps_pure _,
    (bind_pure (setMeta c y)).symm⟩

theorem keeping_finishedWithMeta (c : ℕ) : Keeps Loop.Keeping (finishedWithMeta c) := by
  intro s
  cases hx : exec (finishedWithMeta c) s with
  | mk r t =>
    refine ⟨(later_writes.finishedWithMeta c).of_exec hx, fun hs => ?_⟩
    cases r with
    | ok a => exact wp_returns (wp_finishedWithMeta_kept hs c) hx
    | error e =>
      have hco : t.co = s.co := by
        refine wp_aborts (Q := fun _ _ => True) (E := fun _ t => t.co = s.co) ?_ hx
        simp only [finishedWithMeta, wp_bind, wp_metaAt]
        cases s.co.metas[c]? with
        | none => trivial
        | some x =>
          simp only
          cases tcFinishedWithMeta x with
          | error e => rfl
          | ok r =>
            simp only [fromExcept_ok, wp_pure]
            cases r.1 with
            | none => trivial
            | some fd => trivial
      exact Kept.congr ⟨hs, rfl⟩ (hco ▸ rfl) (hco ▸ rfl)

/-- All but the connection attempts. -/
theorem keeping_connected : AllowsConnected Loop.Keeping where
  books _ _ hmetas hfds _ _ := keeping_of_eq ⟨rfl, le_rfl⟩ hmetas hfds
  answer _ := keeping_of_eq ⟨rfl, Nat.le_succ _⟩ rfl rfl
  claim _ _ _ _ hx := ⟨⟨rfl, le_rfl⟩, fun hs => hs.kept_replace hx rfl Iff.rfl⟩
  command hf := keeping_command hf
  reply hf := keeping_reply hf
  markFailed := keeping_markFailed
  finishedWithMeta := keeping_finishedWithMeta

/-! The connection attempts. -/

/-- A move that looks for a client makes its attempts, and then nothing else is opened. -/
theorem Move.sought {d d' : Config} (hm : Move d d') {m : UInt32} {slot : Slot} {rest : List Slot}
    (hd : d.1 = .claim m (slot :: rest)) (h : Held d.2.co) :
    ∃ r t, Sought slot.cls d.2 r t ∧ t.Keeping d'.2 := by
  cases hm with
  | unclaimed hr =>
    obtain ⟨rfl, hslots⟩ := Point.claim.inj hd
    obtain ⟨rfl, rfl⟩ := List.cons.inj hslots
    exact ⟨_, _, wp_returns (wp_nextAvailable_sought h _) hr, refl_of Loop.Keeping _⟩
  | claimed hr hx =>
    obtain ⟨rfl, hslots⟩ := Point.claim.inj hd
    obtain ⟨rfl, rfl⟩ := List.cons.inj hslots
    have htrans : ∀ {s t u : Loop}, s.Keeping t → t.Keeping u → s.Keeping u :=
      trans_of Loop.Keeping
    refine ⟨_, _, wp_returns (wp_nextAvailable_sought h _) hr, ?_⟩
    exact htrans (keeping_connected.claim _ _ hx)
      (keeping_connected.books _ _ rfl rfl rfl (List.prefix_append _ _))
  | _ => cases hd

theorem take_answers (os : Os) {k n : ℕ} (h : k ≤ n) : (os.answers n).take k = os.answers k := by
  rw [Os.answers, ← List.map_take, List.take_range, Nat.min_eq_left h, Os.answers]

theorem attempts_eq_answers (s : Loop) (cls : Bytes) : (ClientCall.nextAvailable cls).attempts s =
    s.os.answers ((ClientCall.nextAvailable cls).attempts s).length := by
  have hpre := tried_first Answer.accepts (s.os.answers (idleClients s.co.metas cls).length)
  have hlen := hpre.length_le
  rw [length_answers] at hlen
  exact (List.prefix_iff_eq_take.mp hpre).trans (take_answers s.os hlen)

/-- In the round there is an attempt to connect a client with the answer at the tick. -/
def Attempted (r : Round) (tick : ℕ) : Prop :=
  ∃ m slot rest s, Reach r (.claim m (slot :: rest), s) ∧ s.os.tick ≤ tick ∧
    tick < s.os.tick + ((ClientCall.nextAvailable slot.cls).attempts s).length

/-- No connection attempt of the round fails with its socket open. -/
def Round.Connects (r : Round) : Prop := ∀ tick, Attempted r tick → (r.os.script tick).leaks = false

/-! The runs of a round. -/

/-- In a round the descriptors that were open before stay open, and each further one either belongs
to a client or was left behind by a connection attempt that failed. -/
structure Descriptors (r : Round) (s : Loop) : Prop extends Held s.co where
  before : r.openFds <:+ s.co.lost
  left : ∃ ticks : List ℕ, ticks.Pairwise (· < ·) ∧
    (∀ tick ∈ ticks, tick < s.os.tick ∧ Attempted r tick ∧ (r.os.script tick).leaks = true) ∧
    s.co.lost.length = r.openFds.length + ticks.length

theorem lost_of_idle {s : Coord} (h : ∀ x ∈ s.metas, x.fd = -1) : s.lost = s.openFds := by
  refine List.filter_eq_self.mpr fun n _ => List.all_eq_true.mpr fun x hx => ?_
  have hfd := h x hx
  exact decide_eq_true (by omega)

theorem descriptors_start {r : Round} (hs : r.start = .ok (some s)) : Descriptors r s := by
  obtain ⟨-, hfds, hread, -⟩ := Round.start_os hs
  have hidle := tcClientFileRead_idle hread
  have hlost : s.co.lost = r.openFds := by
    rw [← hfds]
    refine lost_of_idle fun x hx => ?_
    rw [← hidle x hx]
    rfl
  exact ⟨held_of_idle hidle, hlost ▸ List.suffix_refl _, [], List.Pairwise.nil, by simp, by
    rw [hlost, List.length_nil, Nat.add_zero]⟩

theorem Descriptors.keeping {r : Round} (h : Descriptors r s) (hk : s.Keeping t) :
    Descriptors r t := by
  obtain ⟨hheld, hlost⟩ := hk.kept h.toHeld
  obtain ⟨ticks, hsorted, hticks, hlen⟩ := h.left
  refine ⟨hheld, hlost ▸ h.before, ticks, hsorted, fun k hk' => ?_, hlost ▸ hlen⟩
  obtain ⟨hlt, hleak⟩ := hticks k hk'
  exact ⟨hlt.trans_le hk.tick, hleak⟩

/-- What is left behind when a client is looked for. -/
theorem Descriptors.sought {r : Round} {m : UInt32} {slot : Slot} {rest : List Slot} {o : Option ℕ}
    (h : Descriptors r s) (hreach : Reach r (.claim m (slot :: rest), s))
    (hscript : s.os.script = r.os.script) (hs : Sought slot.cls s o t) : Descriptors r t := by
  obtain ⟨ticks, hsorted, hticks, hlen⟩ := h.left
  have hattempts := attempts_eq_answers s slot.cls
  have hos := hs.os
  have hlost := hs.lost
  have htried : ∀ k, s.os.tick ≤ k → k < t.os.tick → Attempted r k := fun k hle hlt =>
    ⟨m, slot, rest, s, hreach, hle, by rw [hos] at hlt; exact hlt⟩
  generalize ((ClientCall.nextAvailable slot.cls).attempts s).length = n at hattempts hos
  rw [hattempts, Os.answers, List.countP_map, List.countP_eq_length_filter, hscript] at hlost
  have htick : t.os.tick = s.os.tick + n := by rw [hos]; rfl
  refine ⟨hs.held, h.before.trans hs.before, ticks ++ ((List.range n).filter
    (Answer.leaks ∘ fun k => r.os.script (s.os.tick + k))).map (s.os.tick + ·), ?_, ?_, ?_⟩
  · refine List.pairwise_append.mpr ⟨hsorted, List.pairwise_map.mpr ?_, fun k hk l hl => ?_⟩
    · exact (List.pairwise_lt_range.filter _).imp fun hlt => Nat.add_lt_add_left hlt _
    · obtain ⟨i, -, rfl⟩ := List.mem_map.mp hl
      exact Nat.lt_of_lt_of_le (hticks k hk).1 (Nat.le_add_right _ _)
  · refine List.forall_mem_append.mpr ⟨fun k hk => ?_, List.forall_mem_map.mpr fun i hi => ?_⟩
    · obtain ⟨hlt, hleak⟩ := hticks k hk
      exact ⟨by omega, hleak⟩
    · obtain ⟨hi, hleak⟩ := List.mem_filter.mp hi
      have hlt : s.os.tick + i < t.os.tick :=
        htick ▸ Nat.add_lt_add_left (List.mem_range.mp hi) _
      exact ⟨hlt, htried _ (Nat.le_add_right _ _) hlt, hleak⟩
  · rw [hlost, hlen, List.length_append, List.length_map, Nat.add_assoc]

theorem Reach.descriptors {r : Round} {d : Config} (h : Reach r d) :
    d.2.os.script = r.os.script ∧ Descriptors r d.2 := by
  refine h.induction_moves (I := fun d => d.2.os.script = r.os.script ∧ Descriptors r d.2)
    (fun hs _ => ⟨congrArg Os.script (Round.start_os hs).1, descriptors_start hs⟩) ?_
  rintro ⟨p, s⟩ d' hreach hm ⟨hscript, hdesc⟩
  refine ⟨(later_writes.move hm fun _ _ _ => ⟨rfl, le_rfl⟩).script.trans hscript, ?_⟩
  by_cases hclaim : ∃ m slot rest, p = .claim m (slot :: rest)
  · obtain ⟨m, slot, rest, rfl⟩ := hclaim
    obtain ⟨o, t, hsought, hkeep⟩ := hm.sought rfl hdesc.toHeld
    exact (hdesc.sought hreach hscript hsought).keeping hkeep
  · exact hdesc.keeping (keeping_connected.anyMove keeping_outputResult hm
      (fun _ _ _ => keeping_of_eq ⟨rfl, le_rfl⟩ rfl rfl)
      fun m slot rest hp => hclaim ⟨m, slot, rest, hp⟩)

/-- At the end of a round no client holds a descriptor. -/
theorem AtHead.lost_of_finished {r : Round} (h : AtHead r s)
    (hfin : schedFinished s.co.msms = true) : s.co.lost = s.co.openFds := by
  obtain ⟨-, table, -, hq⟩ := h.quiet
  refine lost_of_idle fun x hx => (hq.coherent.idle hx ?_).2.2
  by_contra hcur
  obtain ⟨e, he, hst⟩ := Option.map_eq_some_iff.mp (hq.coherent.owner_live hx hcur)
  rw [schedFinished_iff.mp hfin e (Msms.get?_eq_some_iff.mp he).1] at hst
  cases hst

end
end Flashflow
