import Mathlib.Logic.Function.Basic
import Mathlib.Data.List.Nodup
import Flashflow.Library.Run

/-! Groups of workers that pass through numbered phases together. A worker joins a group, is sent
the command of a phase, and later has that phase confirmed. A command may only go out while nobody
in the group is behind, and a group may only be closed as a success at the end. -/
namespace Barrier
open LabelledRun

inductive Status where
  | waiting | running | over
  deriving DecidableEq, Repr

inductive Event (W G : Type*) where
  | opened (g : G)
  | joined (w : W) (g : G)
  | sent (w : W) (g : G) (k : ℕ)
  | confirmed (w : W) (g : G) (k : ℕ)
  | closed (g : G) (ok : Bool)

/-- The group a worker is in, with the number of moves it has made there (two for each phase: the
command and its confirmation), and how far each group is. -/
structure Crew (W G : Type*) where
  place : W → Option (G × ℕ)
  status : G → Status

variable {W G : Type*} {x₀ x x' : Crew W G} {es : List (Event W G)} {phases : ℕ}

def Crew.put [DecidableEq W] (x : Crew W G) (w : W) (p : G × ℕ) : Crew W G :=
  { x with place := Function.update x.place w (some p) }

@[simp] theorem Crew.put_status [DecidableEq W] (x : Crew W G) (w : W) (p : G × ℕ) :
    (x.put w p).status = x.status := rfl

theorem Crew.put_place [DecidableEq W] (x : Crew W G) (w : W) (p : G × ℕ) (w' : W) :
    (x.put w p).place w' = if w' = w then some p else x.place w' := by
  simp [put, Function.update_apply]

/-- Everybody in `g` leaves. -/
def Crew.leave [DecidableEq G] (x : Crew W G) (g : G) : W → Option (G × ℕ) :=
  fun w => (x.place w).filter fun p => p.1 ≠ g

theorem Crew.leave_eq_some [DecidableEq G] {g g' : G} {w : W} {n : ℕ} :
    x.leave g w = some (g', n) ↔ x.place w = some (g', n) ∧ g' ≠ g := by
  simp only [leave, Option.filter_eq_some_iff, decide_eq_true_eq]

/-- What the history says about the present state. -/
structure Seen (es : List (Event W G)) (x : Crew W G) : Prop where
  placed : ∀ {w g n}, x.place w = some (g, n) → x.status g = .running ∧ .joined w g ∈ es ∧
    ∀ k, 2 * k + 2 ≤ n → .confirmed w g k ∈ es
  moved : ∀ {w g n}, x.place w = some (g, n) → ∀ k, 2 * k + 1 ≤ n → .sent w g k ∈ es
  joined : ∀ {w g}, .joined w g ∈ es → x.status g ≠ .waiting ∧
    (x.status g = .running → ∃ n, x.place w = some (g, n))
  sent : ∀ {w g k}, .sent w g k ∈ es → x.status g ≠ .waiting ∧
    (x.status g = .running → ∃ n, x.place w = some (g, n + 1))
  closed : ∀ {g ok}, .closed g ok ∈ es → x.status g = .over

theorem Seen.start (h : ∀ w, x.place w = none) : Seen [] x where
  placed hw := by simp [h] at hw
  moved hw := by simp [h] at hw
  joined hw := absurd hw List.not_mem_nil
  sent hw := absurd hw List.not_mem_nil
  closed hg := absurd hg List.not_mem_nil

/-- The events that may only happen once the first `k` phases are confirmed for all of `g`. -/
inductive Gate (phases : ℕ) : Event W G → G → ℕ → Prop
  | sent (w : W) (g : G) (k : ℕ) : Gate phases (.sent w g k) g k
  | closed (g : G) : Gate phases (.closed g true) g phases

/-- A running group that has passed a gate has somebody on the move. -/
theorem Seen.moving {e : Event W G} {g : G} {k : ℕ} (hs : Seen es x) (he : e ∈ es)
    (hg : Gate phases e g k) (hr : x.status g = .running) : ∃ w n, x.place w = some (g, n + 1) := by
  cases hg with
  | sent w => exact ⟨w, (hs.sent he).2 hr⟩
  | closed =>
    rw [hs.closed he] at hr
    cases hr

variable [DecidableEq W] [DecidableEq G]

inductive Step (phases : ℕ) : Crew W G → Event W G → Crew W G → Prop
  | opens {x : Crew W G} {g : G} (h : x.status g = .waiting) :
      Step phases x (.opened g) { x with status := Function.update x.status g .running }
  | joins {x : Crew W G} {w : W} {g : G} (h : x.status g = .running) (hw : x.place w = none)
      (hall : ∀ w' n, x.place w' = some (g, n) → n = 0) :
      Step phases x (.joined w g) (x.put w (g, 0))
  | sends {x : Crew W G} {w : W} {g : G} {k : ℕ} (hw : x.place w = some (g, 2 * k))
      (hall : ∀ w' n, x.place w' = some (g, n) → n = 2 * k ∨ n = 2 * k + 1) :
      Step phases x (.sent w g k) (x.put w (g, 2 * k + 1))
  | confirms {x : Crew W G} {w : W} {g : G} {k : ℕ} (hw : x.place w = some (g, 2 * k + 1)) :
      Step phases x (.confirmed w g k) (x.put w (g, 2 * k + 2))
  | closes {x : Crew W G} {g : G} {ok : Bool} (h : x.status g = .running)
      (hall : ok = true → ∀ w n, x.place w = some (g, n) → n = 2 * phases) :
      Step phases x (.closed g ok)
        { place := x.leave g, status := Function.update x.status g .over }

omit [DecidableEq W] in
theorem Seen.opens {g : G} (hs : Seen es x) (h : x.status g = .waiting) :
    Seen (es ++ [.opened g]) { x with status := Function.update x.status g .running } := by
  refine ⟨fun {w g' n} hw => ?_, fun {w g' n} hw k hk => ?_, fun {w g'} hw => ?_,
    fun {w g' k} hw => ?_, fun {g' ok} hg => ?_⟩
  · obtain ⟨hr, hj, hc⟩ := hs.placed hw
    have hne : g' ≠ g := fun he => by simp [he, h] at hr
    exact ⟨by simpa [hne] using hr, by simp [hj], fun k hk => by simp [hc k hk]⟩
  · exact List.mem_append_left _ (hs.moved hw k hk)
  · have hj := hs.joined (by simpa using hw)
    have hne : g' ≠ g := fun he => hj.1 (he ▸ h)
    simpa [hne] using hj
  · have hj := hs.sent (by simpa using hw)
    have hne : g' ≠ g := fun he => hj.1 (he ▸ h)
    simpa [hne] using hj
  · have hc := hs.closed (by simpa using hg)
    have hne : g' ≠ g := fun he => by simp [he, h] at hc
    simpa [hne] using hc

omit [DecidableEq G] in
/-- A worker moves within its group, or joins it. -/
theorem Seen.put {w : W} {g : G} {n : ℕ} {e : Event W G} (hs : Seen es x)
    (hr : x.status g = .running)
    (hw : x.place w = none ∨ ∃ n', x.place w = some (g, n') ∧ n' < n)
    (hmem : Event.joined w g ∈ es ++ [e] ∧ ∀ k, 2 * k + 2 ≤ n → .confirmed w g k ∈ es ++ [e])
    (hmoved : ∀ k, 2 * k + 1 ≤ n → .sent w g k ∈ es ++ [e])
    (hj : ∀ w' g', e = .joined w' g' → w' = w ∧ g' = g)
    (hsent : ∀ w' g' k, e = .sent w' g' k → w' = w ∧ g' = g ∧ 0 < n)
    (hclosed : ∀ g' ok, e ≠ .closed g' ok) : Seen (es ++ [e]) (x.put w (g, n)) := by
  refine ⟨fun {w' g' n'} h => ?_, fun {w' g' n'} h k hk => ?_, fun {w' g'} h => ?_,
    fun {w' g' k} h => ?_, fun {g' ok} h => ?_⟩
  · rw [Crew.put_place] at h
    split at h
    next heq =>
      obtain ⟨rfl, rfl⟩ : g = g' ∧ n = n' := by simpa using h
      exact ⟨hr, heq ▸ hmem.1, heq ▸ hmem.2⟩
    next =>
      obtain ⟨hst, hjo, hc⟩ := hs.placed h
      exact ⟨hst, by simp [hjo], fun k hk => by simp [hc k hk]⟩
  · rw [Crew.put_place] at h
    split at h
    next heq =>
      obtain ⟨rfl, rfl⟩ : g = g' ∧ n = n' := by simpa using h
      exact heq ▸ hmoved k hk
    next => exact List.mem_append_left _ (hs.moved h k hk)
  · rcases List.mem_append.mp h with h | h
    · refine ⟨(hs.joined h).1, fun hst => ?_⟩
      obtain ⟨n', hn'⟩ := (hs.joined h).2 hst
      rw [Crew.put_place]
      by_cases heq : w' = w
      · subst heq
        rcases hw with hw | ⟨_, hw, -⟩ <;> rw [hw] at hn'
        · cases hn'
        · obtain ⟨rfl, -⟩ : g = g' ∧ _ := by simpa using hn'
          exact ⟨n, by simp⟩
      · exact ⟨n', by simpa [heq] using hn'⟩
    · obtain ⟨rfl, rfl⟩ := hj w' g' (List.mem_singleton.mp h).symm
      refine ⟨by simp [Crew.put, hr], fun _ => ⟨n, by simp [Crew.put]⟩⟩
  · rcases List.mem_append.mp h with h | h
    · refine ⟨(hs.sent h).1, fun hst => ?_⟩
      obtain ⟨n', hn'⟩ := (hs.sent h).2 hst
      rw [Crew.put_place]
      by_cases heq : w' = w
      · subst heq
        rcases hw with hw | ⟨m, hw, hlt⟩ <;> rw [hw] at hn'
        · cases hn'
        · obtain ⟨rfl, rfl⟩ : g = g' ∧ m = n' + 1 := by simpa using hn'
          exact ⟨n - 1, by simp; omega⟩
      · exact ⟨n', by simpa [heq] using hn'⟩
    · obtain ⟨rfl, rfl, hpos⟩ := hsent w' g' k (List.mem_singleton.mp h).symm
      refine ⟨by simp [Crew.put, hr], fun _ => ⟨n - 1, ?_⟩⟩
      rw [Crew.put_place, if_pos rfl, Nat.sub_add_cancel hpos]
  · rcases List.mem_append.mp h with h | h
    · exact hs.closed h
    · exact absurd (List.mem_singleton.mp h).symm (hclosed g' ok)

omit [DecidableEq W] in
theorem Seen.closes {g : G} {ok : Bool} (hs : Seen es x) :
    Seen (es ++ [.closed g ok])
      { place := x.leave g, status := Function.update x.status g .over } := by
  refine ⟨fun {w g' n} hw => ?_, fun {w g' n} hw k hk => ?_, fun {w g'} hw => ?_,
    fun {w g' k} hw => ?_, fun {g' ok'} hg => ?_⟩
  · obtain ⟨hw, hne⟩ := Crew.leave_eq_some.mp hw
    obtain ⟨hr, hj, hc⟩ := hs.placed hw
    exact ⟨by simpa [hne] using hr, by simp [hj], fun k hk => by simp [hc k hk]⟩
  · exact List.mem_append_left _ (hs.moved (Crew.leave_eq_some.mp hw).1 k hk)
  · have hj := hs.joined (by simpa using hw)
    by_cases hne : g' = g
    · simp [hne]
    · simpa [hne, Crew.leave_eq_some] using hj
  · have hj := hs.sent (by simpa using hw)
    by_cases hne : g' = g
    · simp [hne]
    · simpa [hne, Crew.leave_eq_some] using hj
  · by_cases hne : g' = g
    · simp [hne]
    · have hc : x.status g' = .over := hs.closed (by simpa [hne] using hg)
      simpa [hne] using hc

theorem Seen.step {e : Event W G} (hs : Seen es x) (h : Step phases x e x') :
    Seen (es ++ [e]) x' := by
  cases h with
  | opens h => exact hs.opens h
  | joins h hw hall =>
    refine hs.put h (.inl hw) ⟨by simp, fun k hk => absurd hk (by omega)⟩
      (fun k hk => absurd hk (by omega)) ?_ ?_ ?_
    · rintro w' g' ⟨⟩
      exact ⟨rfl, rfl⟩
    · rintro w' g' k ⟨⟩
    · rintro g' ok ⟨⟩
  | @sends w g k hw hall =>
    obtain ⟨hr, hj, hc⟩ := hs.placed hw
    refine hs.put hr (.inr ⟨_, hw, by omega⟩) ⟨by simp [hj], fun j hk => ?_⟩ (fun j hk => ?_)
      ?_ ?_ ?_
    · simp [hc j (by omega)]
    · rcases Nat.lt_or_ge j k with hjk | hjk
      · exact List.mem_append_left _ (hs.moved hw j (by omega))
      · obtain rfl : j = k := by omega
        simp
    · rintro w' g' ⟨⟩
    · rintro w' g' k ⟨⟩
      exact ⟨rfl, rfl, by omega⟩
    · rintro g' ok ⟨⟩
  | @confirms w g k hw =>
    obtain ⟨hr, hj, hc⟩ := hs.placed hw
    refine hs.put hr (.inr ⟨_, hw, by omega⟩) ⟨by simp [hj], fun j hk => ?_⟩
      (fun j hk => List.mem_append_left _ (hs.moved hw j (by omega))) ?_ ?_ ?_
    · rcases Nat.lt_or_ge j k with hjk | hjk
      · simp [hc j (by omega)]
      · obtain rfl : j = k := by omega
        simp
    · rintro w' g' ⟨⟩
    · rintro w' g' k ⟨⟩
    · rintro g' ok ⟨⟩
  | closes h hall => exact hs.closes

theorem Seen.run (h₀ : ∀ w, x₀.place w = none) (h : Run (Step phases) x₀ es x) : Seen es x :=
  h.invariant (Seen.start h₀) Seen.step

/-- At a gate of `g`, whoever is in `g` at any time of the run has joined before and has had all
earlier phases confirmed. -/
theorem gate_after (h₀ : ∀ w, x₀.place w = none) (h : Run (Step phases) x₀ es x)
    {pre post : List (Event W G)} {e : Event W G} {g : G} {k : ℕ} (hes : es = pre ++ e :: post)
    (hg : Gate phases e g k) {w : W} (hj : .joined w g ∈ es) :
    .joined w g ∈ pre ∧ ∀ j < k, .confirmed w g j ∈ pre := by
  induction h generalizing post with
  | nil => simp at hes
  | @snoc evs t t' e' hr hs ih =>
    have hseen := Seen.run h₀ hr
    rcases List.eq_nil_or_concat post with rfl | ⟨post, x, rfl⟩
    · -- the gate is the last step, so its guard speaks about the state before it
      obtain ⟨rfl, he⟩ := List.append_inj' hes rfl
      obtain rfl : e' = e := by simpa using he
      cases hg with
      | sent w₀ =>
        cases hs with
        | sends hw hall =>
          obtain ⟨n, hn⟩ := (hseen.joined (by simpa using hj)).2 (hseen.placed hw).1
          have hle := hall w n hn
          obtain ⟨-, hjoin, hconf⟩ := hseen.placed hn
          exact ⟨hjoin, fun j hjk => hconf j (by omega)⟩
      | closed =>
        cases hs with
        | closes hrun hall =>
          obtain ⟨n, hn⟩ := (hseen.joined (by simpa using hj)).2 hrun
          have hle := hall rfl w n hn
          obtain ⟨-, hjoin, hconf⟩ := hseen.placed hn
          exact ⟨hjoin, fun j hjk => hconf j (by omega)⟩
    · have hes' : evs ++ [e'] = (pre ++ e :: post) ++ [x] := by simpa using hes
      obtain ⟨hevs, -⟩ := List.append_inj' hes' rfl
      rcases List.mem_append.mp hj with hj | hj
      · exact ih hevs hj
      · -- nobody can join after the gate
        obtain rfl := List.mem_singleton.mp hj
        cases hs with
        | joins hrun hw hall =>
          have he : e ∈ evs := by simp [hevs]
          obtain ⟨w', n, hn⟩ := hseen.moving he hg hrun
          cases hall w' _ hn

/-- Barrier safety: at a gate of `g`, whoever is in `g` at any time of the run has had all earlier
phases confirmed. -/
theorem gate_after_confirmed (h₀ : ∀ w, x₀.place w = none) (h : Run (Step phases) x₀ es x)
    {pre post : List (Event W G)} {e : Event W G} {g : G} {k : ℕ} (hes : es = pre ++ e :: post)
    (hg : Gate phases e g k) {w : W} (hj : .joined w g ∈ es) {j : ℕ} (hjk : j < k) :
    .confirmed w g j ∈ pre := (gate_after h₀ h hes hg hj).2 j hjk

/-- Once a command has gone out to somebody in `g`, nobody joins `g`. -/
theorem joined_before_sent (h₀ : ∀ w, x₀.place w = none) (h : Run (Step phases) x₀ es x)
    {early late : List (Event W G)} (hes : es = early ++ late) {w w' : W} {g : G} {k : ℕ}
    (hsent : .sent w g k ∈ early) (hj : .joined w' g ∈ es) : .joined w' g ∈ early := by
  obtain ⟨pre, post, rfl⟩ := List.append_of_mem hsent
  have hsplit : es = pre ++ .sent w g k :: (post ++ late) := by simp [hes]
  have hin := (gate_after h₀ h hsplit (.sent w g k) hj).1
  exact List.mem_append_left _ hin

/-! Every group is closed once. -/

/-- The group an event closes. -/
def Event.verdict : Event W G → Option G
  | .closed g _ => some g
  | _ => none

/-- The groups closed, in the order of the history. -/
def verdicts (es : List (Event W G)) : List G := es.filterMap Event.verdict

omit [DecidableEq W] [DecidableEq G] in
theorem verdicts_cons (e : Event W G) (es : List (Event W G)) :
    verdicts (e :: es) = e.verdict.toList ++ verdicts es := by
  cases e <;> rfl

omit [DecidableEq W] [DecidableEq G] in
theorem verdicts_snoc (es : List (Event W G)) (e : Event W G) :
    verdicts (es ++ [e]) = verdicts es ++ e.verdict.toList := by
  cases e <;> simp [verdicts, Event.verdict]

theorem status_over (h : Run (Step phases) x₀ es x) {g : G} (hg : x₀.status g = .over) :
    x.status g = .over := by
  refine h.invariant (I := fun _ x => x.status g = .over) hg ?_
  rintro evs t e t' ht hs
  cases hs with
  | @opens g' h =>
    have hne : g ≠ g' := fun he => by simp [← he, ht] at h
    simpa [hne] using ht
  | @closes g' ok h => by_cases hne : g = g' <;> simp [hne, ht]
  | _ => exact ht

/-- The history closes exactly the groups that went over since the start, each one once. -/
theorem verdicts_spec (h : Run (Step phases) x₀ es x) : (verdicts es).Nodup ∧
    ∀ g, g ∈ verdicts es ↔ x.status g = .over ∧ x₀.status g ≠ .over := by
  induction h with
  | nil => exact ⟨List.nodup_nil, fun g => by simp [verdicts]⟩
  | @snoc evs t t' e hr hs ih =>
    obtain ⟨hnd, hmem⟩ := ih
    rw [verdicts_snoc]
    cases hs with
    | @opens g' h =>
      refine ⟨by simpa [Event.verdict] using hnd, fun g => ?_⟩
      by_cases hne : g = g'
      · simp [Event.verdict, hmem, hne, h]
      · simp [Event.verdict, hmem, hne]
    | @closes g' ok h =>
      have hnew : g' ∉ verdicts evs := by simp [hmem, h]
      have h₀ : x₀.status g' ≠ .over := fun ho => by simp [status_over hr ho] at h
      have hnd' := List.Nodup.concat hnew hnd
      refine ⟨by simpa [Event.verdict] using hnd', fun g => ?_⟩
      by_cases hne : g = g'
      · simp [Event.verdict, hne, h₀]
      · simp [Event.verdict, hmem, hne]
    | _ => exact ⟨by simpa [Event.verdict] using hnd, by simpa [Event.verdict] using hmem⟩

end Barrier
