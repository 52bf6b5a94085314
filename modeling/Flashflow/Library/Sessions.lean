import Mathlib.Data.Finset.Prod
import Mathlib.Data.Finset.Sum
import Flashflow.Library.Barrier

/-! What one worker does in a run of the barrier protocol: it goes through one session after the
other, each in another group and each a beginning of the same script. No event of a run happens
twice, which bounds its length. -/
namespace Barrier
open LabelledRun

variable {W G : Type*} {x₀ x x' : Crew W G} {es : List (Event W G)} {e : Event W G} {phases : ℕ}

/-- What an event does to its group: it opens it, closes it, or is the `n`-th move of a worker
there, where the move 0 is to join. -/
inductive Mark (W : Type*) where
  | opening
  | closing
  | arrival (w : W) (n : ℕ)
  deriving DecidableEq

def Event.mark : Event W G → G × Mark W
  | .opened g => (g, .opening)
  | .joined w g => (g, .arrival w 0)
  | .sent w g k => (g, .arrival w (2 * k + 1))
  | .confirmed w g k => (g, .arrival w (2 * k + 2))
  | .closed g _ => (g, .closing)

/-- The configuration has the mark behind it. -/
def Crew.Past (x : Crew W G) : G × Mark W → Prop
  | (g, .opening) => x.status g ≠ .waiting
  | (g, .closing) => x.status g = .over
  | (g, .arrival w n) => x.status g ≠ .waiting ∧
      (x.status g = .running → ∃ k ≥ n, x.place w = some (g, k))

variable [DecidableEq W]

/-- A worker that joins a group or moves on in it. -/
theorem Crew.Past.put {w : W} {g : G} {n : ℕ} {μ : G × Mark W} (h : x.Past μ)
    (hw : x.place w = none ∨ ∃ k, x.place w = some (g, k) ∧ k ≤ n) : (x.put w (g, n)).Past μ := by
  obtain ⟨g', _ | _ | ⟨w', n'⟩⟩ := μ
  · exact h
  · exact h
  · refine ⟨h.1, fun hr => ?_⟩
    obtain ⟨k, hk, hp⟩ := h.2 hr
    rw [Crew.put_place]
    by_cases hww : w' = w
    · subst hww
      rcases hw with hw | ⟨j, hw, hj⟩ <;> rw [hw] at hp
      · cases hp
      · obtain ⟨rfl, rfl⟩ : g = g' ∧ j = k := by simpa using hp
        exact ⟨n, hk.trans hj, if_pos rfl⟩
    · exact ⟨k, hk, by rwa [if_neg hww]⟩

section
variable [DecidableEq G]

/-- The history determines the configuration. -/
theorem Step.unique (h : Step phases x e x') {x'' : Crew W G} (h' : Step phases x e x'') :
    x' = x'' := by
  cases h <;> cases h' <;> rfl

/-- A step leaves a mark that was not there, and takes none back. -/
theorem Step.past (h : Step phases x e x') (hs : Seen es x) :
    ¬ x.Past e.mark ∧ x'.Past e.mark ∧ ∀ μ, x.Past μ → x'.Past μ := by
  cases h with
  | @opens g hg =>
    refine ⟨fun hp => hp hg, by simp [Event.mark, Crew.Past], fun μ hμ => ?_⟩
    obtain ⟨g', _ | _ | ⟨w, n⟩⟩ := μ <;> by_cases hne : g' = g <;>
      simp_all [Crew.Past]
  | @joins w g hg hw hall =>
    refine ⟨fun hp => ?_, ⟨by simp [hg], fun _ => ⟨0, le_rfl, by simp [Crew.put_place]⟩⟩,
      fun μ hμ => hμ.put (.inl hw)⟩
    obtain ⟨k, -, hk⟩ := hp.2 hg
    rw [hw] at hk
    cases hk
  | @sends w g k hw hall =>
    have hr := (hs.placed hw).1
    refine ⟨fun hp => ?_, ⟨by simp [hr], fun _ => ⟨_, le_rfl, by simp [Crew.put_place]⟩⟩,
      fun μ hμ => hμ.put (.inr ⟨_, hw, by omega⟩)⟩
    obtain ⟨j, hj, hj'⟩ := hp.2 hr
    obtain rfl : 2 * k = j := by simpa [hw] using hj'
    omega
  | @confirms w g k hw =>
    have hr := (hs.placed hw).1
    refine ⟨fun hp => ?_, ⟨by simp [hr], fun _ => ⟨_, le_rfl, by simp [Crew.put_place]⟩⟩,
      fun μ hμ => hμ.put (.inr ⟨_, hw, by omega⟩)⟩
    obtain ⟨j, hj, hj'⟩ := hp.2 hr
    obtain rfl : 2 * k + 1 = j := by simpa [hw] using hj'
    omega
  | @closes g ok hg hall =>
    refine ⟨fun hp => ?_, by simp [Event.mark, Crew.Past], fun μ hμ => ?_⟩
    · simp [Crew.Past, Event.mark, hg] at hp
    obtain ⟨g', _ | _ | ⟨w, n⟩⟩ := μ
    · by_cases hne : g' = g <;> simp_all [Crew.Past]
    · by_cases hne : g' = g <;> simp_all [Crew.Past]
    · by_cases hne : g' = g
      · simp [Crew.Past, hne]
      · refine ⟨by simpa [hne] using hμ.1, fun hr => ?_⟩
        obtain ⟨k, hk, hp⟩ := hμ.2 (by simpa [hne] using hr)
        exact ⟨k, hk, Crew.leave_eq_some.mpr ⟨hp, hne⟩⟩

/-- No event of a run happens twice. -/
theorem marks_nodup (h₀ : ∀ w, x₀.place w = none) (h : Run (Step phases) x₀ es x) :
    (es.map Event.mark).Nodup ∧ ∀ e ∈ es, x.Past e.mark := by
  induction h with
  | nil => exact ⟨List.nodup_nil, fun _ he => absurd he List.not_mem_nil⟩
  | @snoc evs t t' e hr hs ih =>
    obtain ⟨hnew, hnow, hkeep⟩ := hs.past (Seen.run h₀ hr)
    refine ⟨?_, fun e' he' => ?_⟩
    · rw [List.map_append, List.map_singleton, ← List.concat_eq_append]
      refine List.Nodup.concat (fun hin => ?_) ih.1
      obtain ⟨e', he', heq⟩ := List.mem_map.mp hin
      exact hnew (heq ▸ ih.2 e' he')
    · rcases List.mem_append.mp he' with he' | he'
      · exact hkeep _ (ih.2 e' he')
      · rw [List.mem_singleton.mp he']
        exact hnow

/-- No event of a run is about a group that was over from the start. -/
theorem not_over_of_mem (h₀ : ∀ w, x₀.place w = none) (h : Run (Step phases) x₀ es x)
    (he : e ∈ es) : x₀.status e.mark.1 ≠ .over := by
  obtain ⟨pre, post, rfl⟩ := List.append_of_mem he
  obtain ⟨t, t', hr, hs⟩ := h.at_event
  have hplaced : ∀ {w : W} {g : G} {n : ℕ}, t.place w = some (g, n) → t.status g ≠ .over := by
    intro w g n hw hover
    have hrun := ((Seen.run h₀ hr).placed hw).1
    rw [hover] at hrun
    cases hrun
  have ht : t.status e.mark.1 ≠ .over := by
    cases hs with
    | opens hg => simp [Event.mark, hg]
    | joins hg => simp [Event.mark, hg]
    | sends hw => exact hplaced hw
    | confirms hw => exact hplaced hw
    | closes hg => simp [Event.mark, hg]
  exact fun hover => ht (status_over hr hover)

/-- The events of a run that concern the workers `ws` and the groups `gs` only, up to a phase. -/
def Mark.Within (ws : Finset W) (phases : ℕ) : Mark W → Prop
  | .opening | .closing => True
  | .arrival w n => w ∈ ws ∧ n ≤ 2 * phases

/-- A run is not longer than the marks there are. -/
theorem length_le_marks (h₀ : ∀ w, x₀.place w = none) (h : Run (Step phases) x₀ es x)
    (ws : Finset W) (gs : Finset G) (hin : ∀ e ∈ es, e.mark.1 ∈ gs ∧ e.mark.2.Within ws phases) :
    es.length ≤ gs.card * (ws.card * (2 * phases + 1) + 2) := by
  let all : Finset (Mark W) := {.opening, .closing} ∪
    (ws ×ˢ Finset.range (2 * phases + 1)).image fun p => .arrival p.1 p.2
  have hmem : ∀ μ : Mark W, μ.Within ws phases → μ ∈ all := by
    rintro (_ | _ | ⟨w, n⟩) hμ
    · simp [all]
    · simp [all]
    · have hp : (w, n) ∈ ws ×ˢ Finset.range (2 * phases + 1) :=
        Finset.mem_product.mpr ⟨hμ.1, Finset.mem_range.mpr (Nat.lt_succ_of_le hμ.2)⟩
      exact Finset.mem_union_right _ (Finset.mem_image.mpr ⟨(w, n), hp, rfl⟩)
  have hcard : all.card ≤ ws.card * (2 * phases + 1) + 2 := by
    have hpair : ({.opening, .closing} : Finset (Mark W)).card ≤ 2 := Finset.card_le_two
    have himage := Finset.card_image_le (s := ws ×ˢ Finset.range (2 * phases + 1))
      (f := fun p : W × ℕ => Mark.arrival p.1 p.2)
    rw [Finset.card_product, Finset.card_range] at himage
    have hunion := Finset.card_union_le ({.opening, .closing} : Finset (Mark W))
      ((ws ×ˢ Finset.range (2 * phases + 1)).image fun p => .arrival p.1 p.2)
    simp only [all]
    omega
  have hsub : (es.map Event.mark).toFinset ⊆ gs ×ˢ all := by
    intro μ hμ
    obtain ⟨e, he, rfl⟩ := List.mem_map.mp (List.mem_toFinset.mp hμ)
    exact Finset.mem_product.mpr ⟨(hin e he).1, hmem _ (hin e he).2⟩
  calc es.length = (es.map Event.mark).toFinset.card := by
        rw [List.toFinset_card_of_nodup (marks_nodup h₀ h).1, List.length_map]
    _ ≤ (gs ×ˢ all).card := Finset.card_le_card hsub
    _ = gs.card * all.card := Finset.card_product _ _
    _ ≤ gs.card * (ws.card * (2 * phases + 1) + 2) := Nat.mul_le_mul_left _ hcard

end

/-! The sessions of a worker. -/

/-- The move of `w` that an event is. -/
def Event.moveOf (w : W) (e : Event W G) : Option (G × ℕ) :=
  match e.mark with
  | (g, .arrival w' n) => if w' = w then some (g, n) else none
  | _ => none

def movesOf (w : W) (es : List (Event W G)) : List (G × ℕ) := es.filterMap (Event.moveOf w)

theorem mem_movesOf {w : W} {p : G × ℕ} :
    p ∈ movesOf w es ↔ ∃ e ∈ es, e.mark = (p.1, .arrival w p.2) := by
  simp only [movesOf, List.mem_filterMap]
  refine exists_congr fun e => and_congr_right fun _ => ?_
  cases e <;> simp [Event.moveOf, Event.mark, Prod.ext_iff, and_left_comm]

/-- All moves up to the `n`-th in the group `g`. -/
def session (p : G × ℕ) : List (G × ℕ) := (List.range (p.2 + 1)).map fun n => (p.1, n)

theorem session_succ (g : G) (n : ℕ) : session (g, n + 1) = session (g, n) ++ [(g, n + 1)] := by
  simp [session, List.range_succ]

/-- The worker `w` has been through `past`, the last of them being where it is now, if it is
anywhere. -/
structure Sessions (phases : ℕ) (w : W) (es : List (Event W G)) (x : Crew W G)
    (past : List (G × ℕ)) : Prop where
  moves : movesOf w es = past.flatMap session
  nodup : (past.map Prod.fst).Nodup
  last : ∀ p, x.place w = some p → past.getLast? = some p
  begun : ∀ p ∈ past, x.status p.1 ≠ .waiting
  present : ∀ p ∈ past, x.status p.1 = .running → x.place w = some p
  full : ∀ p ∈ past, .closed p.1 true ∈ es → p.2 = 2 * phases

theorem movesOf_snoc (w : W) (es : List (Event W G)) (e : Event W G) :
    movesOf w (es ++ [e]) = movesOf w es ++ (e.moveOf w).toList := by
  simp only [movesOf, List.filterMap_append, List.filterMap_cons, List.filterMap_nil]
  cases e.moveOf w <;> rfl

/-- An event of somebody else in a running group. -/
theorem Sessions.other {w w' : W} {past : List (G × ℕ)} {p : G × ℕ}
    (h : Sessions phases w es x past) (he : e.moveOf w = none) (hne : w ≠ w')
    (hclosed : ∀ g ok, e ≠ .closed g ok) :
    Sessions phases w (es ++ [e]) (x.put w' p) past := by
  have hplace : (x.put w' p).place w = x.place w := by rw [Crew.put_place, if_neg hne]
  refine ⟨by rw [movesOf_snoc, he, h.moves]; simp, h.nodup, fun q hq => h.last q (hplace ▸ hq),
    h.begun, fun q hq hr => hplace ▸ h.present q hq hr, fun q hq hc => ?_⟩
  rcases List.mem_append.mp hc with hc | hc
  · exact h.full q hq hc
  · exact absurd (List.mem_singleton.mp hc).symm (hclosed _ _)

/-- The worker makes the next move in its group. -/
theorem Sessions.move {w : W} {g : G} {n : ℕ} {past : List (G × ℕ)}
    (h : Sessions phases w es x past) (hs : Seen es x) (hw : x.place w = some (g, n))
    (he : e.moveOf w = some (g, n + 1)) (hclosed : ∀ g ok, e ≠ .closed g ok) :
    ∃ past', Sessions phases w (es ++ [e]) (x.put w (g, n + 1)) past' := by
  obtain ⟨before, hpast⟩ := List.getLast?_eq_some_iff.mp (h.last _ hw)
  have hr : x.status g = .running := (hs.placed hw).1
  have hplace : (x.put w (g, n + 1)).place w = some (g, n + 1) := by
    rw [Crew.put_place, if_pos rfl]
  have hnd := h.nodup
  rw [hpast, List.map_append, List.map_singleton] at hnd
  have hout : ∀ q ∈ before, q.1 ≠ g := by
    rintro q hq rfl
    exact (List.nodup_append.mp hnd).2.2 _ (List.mem_map_of_mem hq) _ (List.mem_singleton.mpr rfl)
      rfl
  refine ⟨before ++ [(g, n + 1)], ?_, by simpa using hnd, fun p hp => ?_, fun q hq => ?_,
    fun q hq hq' => ?_, fun q hq hc => ?_⟩
  · rw [movesOf_snoc, he, h.moves, hpast, List.flatMap_append, List.flatMap_append,
      List.flatMap_singleton, List.flatMap_singleton, session_succ, List.append_assoc]
    rfl
  · rw [hplace] at hp
    rw [← Option.some.inj hp, List.getLast?_concat]
  · rcases List.mem_append.mp hq with hq | hq
    · exact h.begun q (hpast ▸ List.mem_append_left _ hq)
    · rw [List.mem_singleton.mp hq]
      exact fun hwait => by simp [hr] at hwait
  · rcases List.mem_append.mp hq with hq | hq
    · have hold := h.present q (hpast ▸ List.mem_append_left _ hq) hq'
      rw [hw] at hold
      exact absurd (congrArg Prod.fst (Option.some.inj hold)).symm (hout q hq)
    · rw [List.mem_singleton.mp hq, hplace]
  · rcases List.mem_append.mp hc with hc | hc
    · rcases List.mem_append.mp hq with hq | hq
      · exact h.full q (hpast ▸ List.mem_append_left _ hq) hc
      · rw [List.mem_singleton.mp hq] at hc
        have hover : x.status g = .over := hs.closed hc
        rw [hr] at hover
        cases hover
    · exact absurd (List.mem_singleton.mp hc).symm (hclosed _ _)

/-- The worker joins a group. -/
theorem Sessions.join {w : W} {g : G} {past : List (G × ℕ)} (h : Sessions phases w es x past)
    (hs : Seen es x) (hr : x.status g = .running) (hw : x.place w = none) :
    Sessions phases w (es ++ [.joined w g]) (x.put w (g, 0)) (past ++ [(g, 0)]) := by
  have hplace : (x.put w (g, 0)).place w = some (g, 0) := by rw [Crew.put_place, if_pos rfl]
  have hnew : ∀ q ∈ past, q.1 ≠ g := by
    rintro q hq rfl
    have hp := h.present q hq hr
    rw [hw] at hp
    cases hp
  refine ⟨?_, ?_, fun p hp => ?_, fun q hq => ?_, fun q hq hq' => ?_, fun q hq hc => ?_⟩
  · rw [movesOf_snoc, h.moves]
    simp [Event.moveOf, Event.mark, session]
  · rw [List.map_append, List.map_singleton, ← List.concat_eq_append]
    refine List.Nodup.concat (fun hin => ?_) h.nodup
    obtain ⟨q, hq, heq⟩ := List.mem_map.mp hin
    exact hnew q hq heq
  · rw [hplace] at hp
    rw [← Option.some.inj hp, List.getLast?_concat]
  · rcases List.mem_append.mp hq with hq | hq
    · exact h.begun q hq
    · rw [List.mem_singleton.mp hq]
      exact fun hwait => by simp [hr] at hwait
  · rcases List.mem_append.mp hq with hq | hq
    · have hp := h.present q hq hq'
      rw [hw] at hp
      cases hp
    · rw [List.mem_singleton.mp hq, hplace]
  · have hc' : .closed q.1 true ∈ es := by simpa using hc
    rcases List.mem_append.mp hq with hq | hq
    · exact h.full q hq hc'
    · have hover : x.status q.1 = .over := hs.closed hc'
      rw [List.mem_singleton.mp hq, hr] at hover
      cases hover

section
variable [DecidableEq G]

theorem Sessions.step {w : W} {past : List (G × ℕ)} (h : Sessions phases w es x past)
    (hs : Seen es x) (hstep : Step phases x e x') :
    ∃ past', Sessions phases w (es ++ [e]) x' past' := by
  cases hstep with
  | @opens g hg =>
    have hne : ∀ q ∈ past, q.1 ≠ g := fun q hq heq => h.begun q hq (heq ▸ hg)
    refine ⟨past, ?_, h.nodup, h.last, fun q hq => ?_, fun q hq hr => ?_, fun q hq hc => ?_⟩
    · rw [movesOf_snoc, h.moves]
      simp [Event.moveOf, Event.mark]
    · simpa [hne q hq] using h.begun q hq
    · exact h.present q hq (by simpa [hne q hq] using hr)
    · exact h.full q hq (by simpa using hc)
  | @joins w' g hg hw hall =>
    by_cases hww : w = w'
    · subst hww
      exact ⟨_, h.join hs hg hw⟩
    · refine ⟨past, h.other ?_ hww (by rintro _ _ ⟨⟩)⟩
      simp [Event.moveOf, Event.mark, Ne.symm hww]
  | @sends w' g k hw hall =>
    by_cases hww : w = w'
    · subst hww
      exact h.move hs hw (by simp [Event.moveOf, Event.mark]) (by rintro _ _ ⟨⟩)
    · refine ⟨past, h.other ?_ hww (by rintro _ _ ⟨⟩)⟩
      simp [Event.moveOf, Event.mark, Ne.symm hww]
  | @confirms w' g k hw =>
    by_cases hww : w = w'
    · subst hww
      exact h.move hs hw (by simp [Event.moveOf, Event.mark]) (by rintro _ _ ⟨⟩)
    · refine ⟨past, h.other ?_ hww (by rintro _ _ ⟨⟩)⟩
      simp [Event.moveOf, Event.mark, Ne.symm hww]
  | @closes g ok hg hall =>
    refine ⟨past, ?_, h.nodup, fun p hp => ?_, fun q hq => ?_, fun q hq hr => ?_,
      fun q hq hc => ?_⟩
    · rw [movesOf_snoc, h.moves]
      simp [Event.moveOf, Event.mark]
    · exact h.last p (Crew.leave_eq_some (n := p.2).mp hp).1
    · by_cases hne : q.1 = g
      · simp [hne]
      · simpa [hne] using h.begun q hq
    · by_cases hne : q.1 = g
      · simp [hne] at hr
      · exact Crew.leave_eq_some.mpr ⟨h.present q hq (by simpa [hne] using hr), hne⟩
    · rcases List.mem_append.mp hc with hc | hc
      · exact h.full q hq hc
      · -- the group is closed as a success only with everybody at the end
        obtain ⟨rfl, rfl⟩ : q.1 = g ∧ true = ok := by simpa using hc
        exact hall rfl w q.2 (h.present q hq hg)

/-- In every run each worker goes through sessions in different groups. -/
theorem exists_sessions (h₀ : ∀ w, x₀.place w = none) (h : Run (Step phases) x₀ es x) (w : W) :
    ∃ past, Sessions phases w es x past := by
  induction h with
  | nil =>
    exact ⟨[], rfl, List.nodup_nil, fun p hp => by simp [h₀] at hp, by simp, by simp, by simp⟩
  | snoc hr hs ih =>
    obtain ⟨past, hpast⟩ := ih
    exact hpast.step (Seen.run h₀ hr) hs

end
end Barrier
