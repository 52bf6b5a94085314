import Mathlib.Data.Finset.Card
import Mathlib.Algebra.Order.BigOperators.Group.Finset
import Mathlib.Order.WellFoundedSet
import Mathlib.Logic.Relation

/-! Tasks that wait for other tasks. A task may start once everything it needs is complete;
some tasks may not be startable at all. Which task systems can be run to the end? -/
namespace Dependency

open scoped BigOperators

inductive Status where
  | waiting | running | complete
  deriving DecidableEq, Repr

/-- Steps still ahead of a task. -/
def Status.weight : Status → ℕ
  | .waiting => 2
  | .running => 1
  | .complete => 0

/-- Finitely many tasks; `needs i j` says that `i` waits for `j`, and only the tasks that are
`able` can ever be started. -/
structure Tasks (ι : Type*) where
  nodes : Finset ι
  needs : ι → ι → Prop
  able : ι → Prop
  needs_left : ∀ {i j}, needs i j → i ∈ nodes
  needs_right : ∀ {i j}, needs i j → j ∈ nodes

abbrev Config (ι : Type*) := ι → Status

variable {ι : Type*} {T : Tasks ι} {c c' : Config ι} {i j : ι}

namespace Tasks

def Ready (T : Tasks ι) (c : Config ι) (i : ι) : Prop :=
  i ∈ T.nodes ∧ c i = .waiting ∧ T.able i ∧ ∀ j, T.needs i j → c j = .complete

def initial : Config ι := fun _ => .waiting

def Finished (T : Tasks ι) (c : Config ι) : Prop := ∀ i ∈ T.nodes, c i = .complete

/-- Work is left, nothing is running and nothing may start. -/
def Stuck (T : Tasks ι) (c : Config ι) : Prop :=
  ¬ T.Finished c ∧ (∀ i ∈ T.nodes, c i ≠ .running) ∧ ∀ i, ¬ T.Ready c i

def Acyclic (T : Tasks ι) : Prop := ∀ i, ¬ Relation.TransGen T.needs i i

/-- Every task is startable and no task waits for itself through others. -/
def Sound (T : Tasks ι) : Prop := T.Acyclic ∧ ∀ i ∈ T.nodes, T.able i

/-- Whatever has left `waiting` was able, and had everything it needs complete. -/
def Safe (T : Tasks ι) (c : Config ι) : Prop :=
  ∀ i, c i ≠ .waiting → T.able i ∧ ∀ j, T.needs i j → c j = .complete

theorem safe_initial : T.Safe initial := fun _ h => absurd rfl h

/-- Behind a task that has started, everything it needs through others is complete. -/
theorem Safe.complete (h : T.Safe c) (hi : c i ≠ .waiting) (hij : Relation.TransGen T.needs i j) :
    c j = .complete := by
  induction hij with
  | single hj => exact (h i hi).2 _ hj
  | @tail k j _ hj ih =>
    have hk : c k ≠ .waiting := by
      rw [ih]
      rintro ⟨⟩
    exact (h k hk).2 j hj

theorem Ready.complete (hr : T.Ready c i) (h : T.Safe c) (hij : Relation.TransGen T.needs i j) :
    c j = .complete := by
  obtain ⟨k, hk, hkj⟩ := Relation.TransGen.head'_iff.mp hij
  have hck := hr.2.2.2 k hk
  rcases Relation.reflTransGen_iff_eq_or_transGen.mp hkj with rfl | hkj
  · exact hck
  · refine h.complete ?_ hkj
    rw [hck]
    rintro ⟨⟩

/-- In an acyclic system every nonempty set of tasks has one that needs none of the others. -/
theorem Acyclic.exists_minimal (h : T.Acyclic) {S : Set ι} (hS : S ⊆ T.nodes) (hne : S.Nonempty) :
    ∃ i ∈ S, ∀ j ∈ S, ¬ T.needs i j := by
  let r : ι → ι → Prop := fun j i => Relation.TransGen T.needs i j
  have hirr : Std.Irrefl r := ⟨h⟩
  have htr : IsTrans ι r := ⟨fun _ _ _ hab hbc => Relation.TransGen.trans hbc hab⟩
  have hso : IsStrictOrder ι r := { hirr, htr with }
  have hwf : Set.WellFoundedOn S r := (T.nodes.wellFoundedOn (r := r)).subset hS
  obtain ⟨x, hx⟩ := hne
  obtain ⟨⟨i, hi⟩, -, hmin⟩ := WellFounded.has_min hwf Set.univ ⟨⟨x, hx⟩, trivial⟩
  exact ⟨i, hi, fun j hj hn => hmin ⟨j, hj⟩ trivial (Relation.TransGen.single hn)⟩

/-- A sound system with work left and nothing running has a task ready to start. -/
theorem Sound.exists_ready (h : T.Sound) (hf : ¬ T.Finished c)
    (hrun : ∀ i ∈ T.nodes, c i ≠ .running) : ∃ i, T.Ready c i := by
  let S : Set ι := {i | i ∈ T.nodes ∧ c i ≠ .complete}
  have hne : S.Nonempty := by
    simpa [Finished, S, Set.Nonempty, not_forall] using hf
  obtain ⟨i, ⟨hin, hic⟩, hmin⟩ := h.1.exists_minimal (fun _ hi => hi.1) hne
  refine ⟨i, hin, ?_, h.2 i hin, fun j hj => ?_⟩
  · have hir := hrun i hin
    cases hci : c i <;> simp_all
  · by_contra hjc
    exact hmin j ⟨T.needs_right hj, hjc⟩ hj

theorem Sound.not_stuck (h : T.Sound) : ¬ T.Stuck c := by
  rintro ⟨hf, hrun, hready⟩
  obtain ⟨i, hi⟩ := h.exists_ready hf hrun
  exact hready i hi

/-! Steps and the configurations they reach. -/

variable [DecidableEq ι]

inductive Step (T : Tasks ι) : Config ι → Config ι → Prop
  | start {c : Config ι} {i : ι} (h : T.Ready c i) : Step T c (Function.update c i .running)
  | finish {c : Config ι} {i : ι} (hi : i ∈ T.nodes) (h : c i = .running) :
      Step T c (Function.update c i .complete)

abbrev Reaches (T : Tasks ι) : Config ι → Config ι → Prop := Relation.ReflTransGen T.Step

theorem Safe.step (h : T.Safe c) (hs : T.Step c c') : T.Safe c' := by
  cases hs with
  | @start i hr =>
    obtain ⟨-, hw, hable, hneeds⟩ := hr
    -- a task that is complete cannot be the one being started
    have keep {j : ι} (hj : c j = .complete) :
      Function.update c i Status.running j = .complete := by
      have hne : j ≠ i := by rintro rfl; simp [hw] at hj
      rw [Function.update_of_ne hne, hj]
    intro k hk
    by_cases hki : k = i
    · subst hki
      exact ⟨hable, fun j hj => keep (hneeds j hj)⟩
    · rw [Function.update_of_ne hki] at hk
      exact ⟨(h k hk).1, fun j hj => keep ((h k hk).2 j hj)⟩
  | @finish i _ hr =>
    have keep {j : ι} (hj : c j = .complete) :
        Function.update c i Status.complete j = .complete := by
      by_cases hji : j = i
      · subst hji; simp
      · rw [Function.update_of_ne hji, hj]
    intro k hk
    have hk' : c k ≠ .waiting := by
      by_cases hki : k = i
      · subst hki; simp [hr]
      · rwa [Function.update_of_ne hki] at hk
    exact ⟨(h k hk').1, fun j hj => keep ((h k hk').2 j hj)⟩

/-- A task that may start stays so until it is started. -/
theorem Ready.step (h : T.Ready c i) (hs : T.Step c c') : T.Ready c' i ∨ c' i = .running := by
  obtain ⟨hi, hw, hable, hneeds⟩ := h
  cases hs with
  | @start k hk =>
    by_cases hik : i = k
    · subst hik
      exact .inr (by simp)
    · refine .inl ⟨hi, by rwa [Function.update_of_ne hik], hable, fun j hj => ?_⟩
      have hjk : j ≠ k := by rintro rfl; simpa [hk.2.1] using hneeds j hj
      rw [Function.update_of_ne hjk, hneeds j hj]
  | @finish k hk hr =>
    have hik : i ≠ k := by rintro rfl; simp [hw] at hr
    refine .inl ⟨hi, by rwa [Function.update_of_ne hik], hable, fun j hj => ?_⟩
    by_cases hjk : j = k
    · subst hjk; simp
    · rw [Function.update_of_ne hjk, hneeds j hj]

theorem Safe.reaches (h : T.Safe c) (hr : T.Reaches c c') : T.Safe c' := by
  induction hr with
  | refl => exact h
  | tail _ hs ih => exact ih.step hs

/-- No task on a cycle ever leaves `waiting`. -/
theorem cyclic_waiting (hr : T.Reaches initial c) (hi : Relation.TransGen T.needs i i) :
    c i = .waiting := by
  induction hr generalizing i with
  | refl => rfl
  | @tail c c' _ hs ih =>
    cases hs with
    | @start k hk =>
      by_cases hik : i = k
      · subst hik
        -- the first edge of the cycle leads to a task that is itself on the cycle
        obtain ⟨j, hij, hj⟩ : ∃ j, T.needs i j ∧ Relation.TransGen T.needs j j := by
          rcases Relation.TransGen.head'_iff.mp hi with ⟨j, hij, hji⟩
          exact ⟨j, hij, Relation.TransGen.tail' hji hij⟩
        have hw := ih hj
        rw [hk.2.2.2 j hij] at hw
        cases hw
      · rw [Function.update_of_ne hik]
        exact ih hi
    | @finish k _ hk =>
      have hik : i ≠ k := by rintro rfl; rw [ih hi] at hk; cases hk
      rw [Function.update_of_ne hik]
      exact ih hi

/-- The work that is left: two steps for a waiting task, one for a running one. -/
def work (T : Tasks ι) (c : Config ι) : ℕ := ∑ i ∈ T.nodes, Status.weight (c i)

theorem work_update_lt {s : Status} (hi : i ∈ T.nodes) (h : Status.weight s < Status.weight (c i)) :
    T.work (Function.update c i s) < T.work c := by
  apply Finset.sum_lt_sum
  · intro j _
    by_cases hj : j = i
    · subst hj; simpa using h.le
    · rw [Function.update_of_ne hj]
  · exact ⟨i, hi, by simpa using h⟩

theorem Step.work_lt (hs : T.Step c c') : T.work c' < T.work c := by
  cases hs with
  | start h => exact work_update_lt h.1 (by simp [h.2.1, Status.weight])
  | finish hi h => exact work_update_lt hi (by simp [h, Status.weight])

/-- Every configuration runs on to one from which no step is possible. -/
theorem exists_maximal (T : Tasks ι) (c : Config ι) :
    ∃ c', T.Reaches c c' ∧ ∀ d, ¬ T.Step c' d := by
  induction hn : T.work c using Nat.strong_induction_on generalizing c with
  | _ n ih =>
    by_cases hex : ∃ d, T.Step c d
    · obtain ⟨d, hd⟩ := hex
      obtain ⟨c', hc', hmax⟩ := ih (T.work d) (hn ▸ hd.work_lt) d rfl
      exact ⟨c', Relation.ReflTransGen.head hd hc', hmax⟩
    · exact ⟨c, .refl, fun d hd => hex ⟨d, hd⟩⟩

theorem stuck_of_maximal (hmax : ∀ d, ¬ T.Step c d) (hf : ¬ T.Finished c) : T.Stuck c :=
  ⟨hf, fun _ hi hr => hmax _ (.finish hi hr), fun _ hr => hmax _ (.start hr)⟩

/-- From every configuration of a sound system the end can be reached. -/
theorem Sound.finishes (h : T.Sound) (c : Config ι) : ∃ c', T.Reaches c c' ∧ T.Finished c' := by
  obtain ⟨c', hc', hmax⟩ := T.exists_maximal c
  exact ⟨c', hc', by_contra fun hf => h.not_stuck (stuck_of_maximal hmax hf)⟩

theorem sound_of_finished (hr : T.Reaches initial c) (hf : T.Finished c) : T.Sound := by
  constructor
  · intro i hi
    obtain ⟨j, hij, -⟩ := Relation.TransGen.head'_iff.mp hi
    have hw := cyclic_waiting hr hi
    rw [hf i (T.needs_left hij)] at hw
    cases hw
  · intro i hi
    exact (safe_initial.reaches hr i (by simp [hf i hi])).1

/-- Exactly the sound systems can be run to the end. -/
theorem sound_iff_finishable : T.Sound ↔ ∃ c, T.Reaches initial c ∧ T.Finished c :=
  ⟨fun h => h.finishes initial, fun ⟨_, hr, hf⟩ => sound_of_finished hr hf⟩

/-- Exactly the sound systems never get stuck. -/
theorem sound_iff_never_stuck : T.Sound ↔ ∀ c, T.Reaches initial c → ¬ T.Stuck c := by
  constructor
  · intro h c _
    exact h.not_stuck
  · intro h
    obtain ⟨c, hc, hmax⟩ := T.exists_maximal initial
    have hf : T.Finished c := by_contra fun hf => h c hc (stuck_of_maximal hmax hf)
    exact sound_of_finished hc hf

end Tasks
end Dependency
