import Flashflow.Loop.Deadline
import Flashflow.Sched.Json

/-! A schedule that was printed from a list of sets, in the runs of the coordinator: the sets are
measured one after another, and every round ends. -/
namespace Flashflow
open Sched Program Outcome

namespace Sched

/-! How long the measurements take. -/

/-- If a measurement is read from the line, it takes half a minute. -/
def HalfMinute (line : Text) : Prop := ∀ m, newFromString line = .ok (some m) → m.dur = 30

section Durations
variable {dep : Text} {deps : List ℕ} {next : ℕ} {old : List Text}

theorem wp_jsonSet_halfMinute {entries : List (Text × JsonMap UInt32)} (hdep : DepText dep deps)
    (hdeps : ∀ d ∈ deps, 0 < d ∧ d < next) (hpos : 0 < next) (hnext : next < 2 ^ 31)
    (hnames : WellNamed entries) (hbg : BgWellRated entries)
    (hold : ∀ line ∈ old, HalfMinute line) :
    wp (jsonSet dep entries next) (fun _ printed => ∀ line ∈ printed, HalfMinute line)
      (fun _ printed => ∀ line ∈ printed, HalfMinute line) old := by
  induction entries generalizing next old with
  | nil => exact hold
  | cons e entries ih =>
    obtain ⟨fp, classes⟩ := e
    obtain ⟨⟨hfp, hclasses⟩, hnames'⟩ := List.forall_mem_cons.mp hnames
    obtain ⟨hbg₀, hbg'⟩ := List.forall_mem_cons.mp hbg
    unfold jsonSet
    cases hline : jsonLine next fp classes.entries dep with
    | error err => exact hold
    | ok line =>
      obtain ⟨conn, hm⟩ := newFromString_jsonLine ⟨hpos, hnext⟩ hfp hclasses classes.nodup hbg₀ hdep
        hdeps hline
      have hprinted : ∀ l ∈ old ++ [line], HalfMinute l := by
        refine List.forall_mem_append.mpr ⟨hold, List.forall_mem_singleton.mpr fun m hread => ?_⟩
        obtain rfl := Option.some.inj (Except.ok.inj (hm.symm.trans hread))
        rfl
      simp only [fromExcept_ok, wp_bind, wp_pure, println, wp_modifyState]
      unfold i32Succ
      split
      next hlast =>
        have hdeps' : ∀ d ∈ deps, 0 < d ∧ d < next + 1 := fun d hd =>
          ⟨(hdeps d hd).1, Nat.lt_succ_of_lt (hdeps d hd).2⟩
        simp only [fromExcept_ok, wp_pure, wp_bind]
        exact ih hdeps' (Nat.succ_pos next) hlast hnames' hbg' hprinted
      next => exact hprinted

theorem wp_jsonSets_halfMinute {sets : List JsonSet} (hdep : DepText dep deps)
    (hdeps : ∀ d ∈ deps, 0 < d ∧ d < next) (hpos : 0 < next) (hnext : next < 2 ^ 31)
    (hnames : ∀ set ∈ sets, WellNamed set.entries) (hbg : ∀ set ∈ sets, BgWellRated set.entries)
    (hold : ∀ line ∈ old, HalfMinute line) :
    wp (jsonSets sets dep next) (fun _ printed => ∀ line ∈ printed, HalfMinute line)
      (fun _ printed => ∀ line ∈ printed, HalfMinute line) old := by
  induction sets generalizing dep deps next old with
  | nil => exact hold
  | cons set sets ih =>
    obtain ⟨hnames₀, hnames'⟩ := List.forall_mem_cons.mp hnames
    obtain ⟨hbg₀, hbg'⟩ := List.forall_mem_cons.mp hbg
    unfold jsonSets
    rw [wp_bind]
    refine wp_mono (wp_and (wp_jsonSet hdep hdeps hpos hnext hnames₀ hbg₀)
      (wp_jsonSet_halfMinute hdep hdeps hpos hnext hnames₀ hbg₀ hold)) ?_ fun _ _ h => h.2
    rintro _ printed ⟨⟨rfl, hlt, -⟩, hprinted⟩
    have hdeps' : ∀ d ∈ List.range' next set.entries.length,
        0 < d ∧ d < next + set.entries.length := by
      intro d hd
      obtain ⟨hle, hlt⟩ := List.mem_range'_1.mp hd
      omega
    exact ih (.ids _) hdeps' (Nat.add_pos_left hpos _) hlt hnames' hbg' hprinted

end Durations

/-- All that `sched_new_from_json` has printed when it panics. -/
theorem jsonPrinted_halfMinute {base : Msms} {sets : List JsonSet}
    (hnames : ∀ set ∈ sets, WellNamed set.entries) (hbg : ∀ set ∈ sets, BgWellRated set.entries) :
    ∀ line ∈ jsonPrinted base sets, HalfMinute line := by
  refine wp_last (R := fun printed => ∀ line ∈ printed, HalfMinute line) ?_
  rw [schedNewFromJson, wp_bind]
  refine wp_conseq (wp_jsonSets_halfMinute .first (fun d hd => absurd hd List.not_mem_nil)
    Nat.one_pos (by decide) hnames hbg fun _ h => absurd h List.not_mem_nil) ?_
  intro _ printed h
  simp only [wp_bind, wp_getState]
  cases (parseLines printed).mapError JsonPanic.sched with
  | error e => exact h
  | ok ms =>
    rw [fromExcept_ok, wp_pure, wp_bind]
    cases (checkAndInsertMeasurements base ms).mapError JsonPanic.sched with
    | error e => exact h
    | ok s => exact h

/-! The order of the ids. -/

section Layers
variable {deps : List ℕ} {next : ℕ} {sets : List JsonSet} {lines : List Text} {prev : List UInt32}
  {layers : List (List Measurement)}

theorem SetsRead.sorted (h : SetsRead deps next sets lines layers) :
    layers.flatten.Pairwise fun x y => x.id < y.id := by
  have hb := h.bound
  have hsmall : ∀ i ∈ List.range' next (jsonTotal sets), (UInt32.ofNat i).toNat = i := by
    intro i hi
    have hlt := (List.mem_range'_1.mp hi).2
    exact UInt32.toNat_ofNat_of_lt' (Nat.lt_of_lt_of_le hlt (Nat.le_trans hb (by decide)))
  refine List.pairwise_map.mp (h.ids ▸ List.pairwise_map.mpr ?_)
  refine List.Pairwise.imp_of_mem (fun {i j} hi hj hlt => ?_) List.pairwise_lt_range'
  rw [UInt32.lt_iff_toNat_lt, hsmall i hi, hsmall j hj]
  exact hlt

/-- A measurement only waits for smaller ids, and for none of them twice. -/
theorem Layered.below (h : Layered prev layers)
    (hsorted : layers.flatten.Pairwise fun x y => x.id < y.id) (hprev : prev.Nodup)
    (hbelow : ∀ d ∈ prev, ∀ m ∈ layers.flatten, d < m.id) :
    ∀ m ∈ layers.flatten, m.depends.Nodup ∧ ∀ d ∈ m.depends, d < m.id := by
  induction layers generalizing prev with
  | nil => exact fun m hm => absurd hm List.not_mem_nil
  | cons layer layers ih =>
    obtain ⟨hlayer, hrest⟩ := h
    rw [List.flatten_cons] at hsorted hbelow ⊢
    obtain ⟨hhere, hthere, hcross⟩ := List.pairwise_append.mp hsorted
    refine List.forall_mem_append.mpr ⟨fun m hm => ?_, ih hrest hthere ?_ ?_⟩
    · rw [hlayer m hm]
      exact ⟨hprev, fun d hd => hbelow d hd m (List.mem_append_left _ hm)⟩
    · exact List.pairwise_map.mpr (hhere.imp UInt32.ne_of_lt)
    · exact List.forall_mem_map.mpr fun x hx m hm => hcross x hx m hm

theorem acyclic_of_below {ms : List Measurement} (h : ∀ m ∈ ms, ∀ d ∈ m.depends, d < m.id) :
    DependsAcyclic ms := by
  have hlt : ∀ i j, Relation.TransGen (DependsOn ms) i j → j < i := by
    intro i j hij
    induction hij with
    | single hdep =>
      obtain ⟨m, hm, rfl, hd⟩ := hdep
      exact h m hm _ hd
    | tail _ hdep ih =>
      obtain ⟨m, hm, rfl, hd⟩ := hdep
      exact UInt32.lt_trans (h m hm _ hd) ih
  exact fun i hi => UInt32.lt_irrefl i (hlt i i hi)

end Layers

/-- All lines are printed, and they are read back. -/
theorem printed_spec {base : Msms} {sets : List JsonSet}
    (hnames : ∀ set ∈ sets, WellNamed set.entries) (hbg : ∀ set ∈ sets, BgWellRated set.entries)
    (hall : (jsonPrinted base sets).length = jsonTotal sets) : ∃ layers,
      SetsRead [] 1 sets (jsonPrinted base sets) layers ∧
      parseLines (jsonPrinted base sets) = .ok layers.flatten ∧
      (∀ m ∈ layers.flatten, m.dur = 30) ∧
      DependsAcyclic layers.flatten ∧ ∀ m ∈ layers.flatten, m.Startable := by
  have hwritten : Written [] 1 sets [] (jsonPrinted base sets) := jsonPrinted_written hnames hbg
  obtain ⟨lines, hlines, -, hread⟩ := hwritten
  rw [List.nil_append] at hlines
  rw [hlines] at hall ⊢
  obtain ⟨layers, h⟩ := hread hall
  have hdur : ∀ m ∈ layers.flatten, m.dur = 30 := by
    intro m hm
    obtain ⟨line, hline, hm⟩ := exists_of_mapM h.parsed (List.mem_map_of_mem hm)
    exact jsonPrinted_halfMinute hnames hbg line (hlines ▸ hline) m hm
  have hbelow := h.layered.below h.sorted List.nodup_nil fun d hd => absurd hd List.not_mem_nil
  refine ⟨layers, h, ?_, hdur, acyclic_of_below fun m hm => (hbelow m hm).2, fun m hm => ?_⟩
  · have hid : id ∘ (some : Measurement → Option Measurement) = some := rfl
    rw [parseLines, h.parsed]
    exact congrArg Except.ok (by rw [List.filterMap_map, hid, List.filterMap_some])
  · exact ⟨(hbelow m hm).1, by rw [hdur m hm]; decide⟩

end Sched

/-! The runs of the coordinator. -/

/-- What happens to a measurement of a set happens after all that happens to earlier sets, and the
clients that work at a time work for one set. -/
structure SetBySet (layers : List (List Measurement)) (s : Coord) : Prop where
  history : ∀ pre e post, s.trace = pre ++ e :: post → ∀ (i j : ℕ) (a b : List Measurement), i < j →
    layers[i]? = some a → layers[j]? = some b → (∃ y ∈ b, y.id = e.msm) →
      ∀ x ∈ a, IsOver x.id pre ∧ ∀ e' ∈ post, e'.msm ≠ x.id
  clients : ∀ x ∈ s.metas, ∀ y ∈ s.metas, x.currentMId ≠ 0 → y.currentMId ≠ 0 →
    ∃ a ∈ layers, (∃ m ∈ a, m.id = x.currentMId) ∧ ∃ m ∈ a, m.id = y.currentMId

section
variable {r : Round} {layers : List (List Measurement)} {d : Config}

theorem Reach.setBySet (h : Reach r d) (hms : parseLines r.lines = .ok layers.flatten)
    (hwaits : ∀ (i j : ℕ) (a b : List Measurement), i < j → layers[i]? = some a →
      layers[j]? = some b → ∀ x ∈ a, ∀ y ∈ b,
        Relation.TransGen (DependsOn layers.flatten) y.id x.id) : SetBySet layers d.2.co := by
  obtain ⟨ms, table, hl, hholds, c, hc⟩ := h.scheduled
  obtain rfl : ms = layers.flatten := Except.ok.inj (hl.parsed.symm.trans hms)
  have hco : Coherent table d.2.co := hholds.coherent.1
  refine ⟨fun pre e post hes i j a b hij ha hb hy x hx => ?_, fun x hx y hy hxc hyc => ?_⟩
  · obtain ⟨y, hy, hid⟩ := hy
    exact hc.ordered pre e post hes x.id (hid ▸ hwaits i j a b hij ha hb x hx y hy)
  · have hset : ∀ z ∈ d.2.co.metas, z.currentMId ≠ 0 → c z.currentMId = .running ∧
        ∃ (i : ℕ) (a : List Measurement), layers[i]? = some a ∧ ∃ m ∈ a, m.id = z.currentMId := by
      intro z hz hcur
      have hlive := hco.owner_live hz hcur
      obtain ⟨e, he, hst⟩ := Option.map_eq_some_iff.mp hlive
      obtain ⟨m, hm, hplan⟩ := Coherent.in_schedule hl hco he (by rw [hst]; rintro ⟨⟩)
      have hid : m.id = z.currentMId :=
        (congrArg Measurement.id hplan).symm.trans (Msms.get?_eq_some_iff.mp he).2
      obtain ⟨a, ha, hma⟩ := List.mem_flatten.mp hm
      obtain ⟨i, hi⟩ := List.mem_iff_getElem?.mp ha
      exact ⟨hc.running hlive, i, a, hi, m, hma, hid⟩
    obtain ⟨hxrun, i, a, ha, mx, hmx, hidx⟩ := hset x hx hxc
    obtain ⟨hyrun, j, b, hb, my, hmy, hidy⟩ := hset y hy hyc
    -- what waits for a running measurement cannot run
    have hno : ∀ {k l : UInt32}, c k = .running → c l = .running →
        ¬ Relation.TransGen (DependsOn layers.flatten) k l := by
      intro k l hk hl' hkl
      have hdone := hc.safe.complete (by rw [hk]; rintro ⟨⟩) hkl
      rw [hl'] at hdone
      cases hdone
    rcases Nat.lt_trichotomy i j with hij | rfl | hij
    · have hwait := hwaits i j a b hij ha hb mx hmx my hmy
      exact (hno hyrun hxrun (hidx ▸ hidy ▸ hwait)).elim
    · obtain rfl : a = b := Option.some.inj (ha.symm.trans hb)
      exact ⟨a, List.mem_of_getElem? ha, ⟨mx, hmx, hidx⟩, my, hmy, hidy⟩
    · have hwait := hwaits j i b a hij hb ha my hmy mx hmx
      exact (hno hxrun hyrun (hidx ▸ hidy ▸ hwait)).elim

def chainSetsRound : Round :=
  { talkingClients with
    lines := jsonPrinted .empty chainSets
    os := { talkingClients.os with
      script := fun tick => { talkingClients.os.script tick with
        recv := some (if tick = 9 ∨ tick = 32 then bytes "250 SPEEDTESTING"
          else if tick = 20 ∨ tick = 43 then [] else bytes "250 OK") } } }

def chainSetsSchedule : List Measurement :=
  [⟨1, "AA".toList, 30, .waiting, [⟨"m".toList, 5, 160⟩], [], [], 0⟩,
   ⟨2, "BB".toList, 30, .waiting, [⟨"m".toList, 5, 160⟩], [1], [], 0⟩]

def chainSetsStart : Loop where
  os := chainSetsRound.os
  co := { twoClientsStart.co with msms := ⟨chainSetsSchedule, by decide⟩ }

example : (chainSetsStart.after 10).co.countSuccess = 2 := by decide +kernel

theorem chainSets_atHead {n : ℕ} (hn : n ≤ 6) :
    AtHead chainSetsRound (chainSetsStart.after n) := by
  have hturns : ∀ i < 6, schedFinished (chainSetsStart.after i).co.msms = false ∧
      (exec mainLoopTurn (chainSetsStart.after i)).1 = .ok true := by
    decide +kernel
  exact (AtHead.first rfl rfl).after fun i hi => hturns i (Nat.lt_of_lt_of_le hi hn)

theorem not_interrupts_chainSets {e : Abort} :
    ¬ Interrupts chainSetsRound chainSetsSchedule e := by
  refine not_interrupts ?_ (by decide +kernel) (fun k => ?_) fun k => ?_
  · simp only [chainSetsSchedule, List.forall_mem_cons, Measurement.NulFree]
    decide
  · simp [chainSetsRound, talkingClients]
  · rintro ⟨got, hgot, hover⟩
    obtain rfl := Option.some.inj hgot
    split at hover
    · revert hover
      decide +kernel
    · split at hover <;> revert hover <;> decide +kernel

end

end Flashflow
