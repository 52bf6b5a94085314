import Flashflow.Loop.Footprint
import Flashflow.Loop.Scheduling
import Flashflow.Loop.Sessions
import Flashflow.Torclient.Segments

/-! Where the lines of the result file come from. Each is a piece of what one client has sent for
one measurement of the schedule, while it was measuring for it. -/
namespace Flashflow
open Sched Program Outcome Barrier

/-- Time goes on, but nothing is written. -/
structure Loop.Silent (s t : Loop) : Prop extends Loop.Later s t where
  out : t.os.out = s.os.out

instance : IsPreorder Loop Loop.Silent where
  refl s := ⟨refl_of Loop.Later s, rfl⟩
  trans _ _ _ h h' := ⟨trans_of Loop.Later h.toLater h'.toLater, h'.out.trans h.out⟩

theorem silent_footprint : Footprint Loop.Silent :=
  .of_inside (fun _ _ _ => ⟨⟨rfl, le_rfl⟩, rfl⟩) fun _ => ⟨⟨rfl, Nat.le_succ _⟩, rfl⟩

/-- What client `x` writes for `e` if it is read with the answer `a`. -/
def readingLines (e : Measurement) (x : Meta) (a : Answer) : List ResultLine :=
  resultLines e.id (utf8 e.fp) a.time (a.recv.map (·.take readBufLen)) x

/-- Client `x` has been read once for `e`, and its results are written. -/
structure Loop.Wrote (e : Measurement) (x : Meta) (s t : Loop) : Prop where
  script : t.os.script = s.os.script
  tick : s.os.tick < t.os.tick
  out : t.os.out = s.os.out ++ readingLines e x (s.os.script s.os.tick)

section
variable {r : Round} {ms : List Measurement} {table : Msms} {s t : Loop} {c : ℕ} {x : Meta}
  {e : Measurement} {p : Phase}

theorem wp_outputResult_wrote (hx : s.co.metas[c]? = some x) (hst : x.state = .measuring) :
    wp (outputResult e.params c) (fun _ t => s.Wrote e x t) (fun _ _ => True) s := by
  simp only [outputResult, answer, wp_bind, wp_getState, wp_modifyState, wp_pure, wp_metaAt, hx]
  cases hr : tcOutputResult e.params.id e.params.fp (s.os.script s.os.tick).time
    ((s.os.script s.os.tick).recv.map (·.take readBufLen)) x with
  | error err => simp only [fromExcept_error, wp_abort]
  | ok out =>
    obtain ⟨ok, lines, y⟩ := out
    obtain ⟨rfl, -⟩ := tcOutputResult_ok hst hr
    simp only [fromExcept_ok, wp_pure, wp_bind, wp_setMeta]
    split <;> exact ⟨rfl, Nat.lt_succ_self _, rfl⟩

/-- What a move writes: nothing, or what one measuring client has sent. -/
inductive Loop.Heard (s t : Loop) : Prop
  | silent (h : s.Silent t)
  | results {c : ℕ} {x : Meta} {e : Measurement} (hx : s.co.metas[c]? = some x)
      (hst : x.state = .measuring) (he : s.co.msms.get? x.currentMId = some e) (hnul : e.NulFree)
      (h : s.Wrote e x t)

theorem handler_heard {ok : Bool} (h : Quiet table s.co) (hx : s.co.metas[c]? = some x)
    (hst : x.state = p.waits) (hr : exec (p.handler c) s = (.ok ok, t)) : s.Heard t := by
  cases p with
  | auth => exact .silent ((silent_footprint.allows.authedSocket c).of_exec hr)
  | connect => exact .silent ((silent_footprint.allows.connectedSocket c).of_exec hr)
  | setBw => exact .silent ((silent_footprint.allows.didSetBwRate c).of_exec hr)
  | measure =>
    refine wp_returns (Q := fun _ t => s.Heard t) (E := fun _ _ => True) ?_ hr
    rw [Phase.handler, wp_bind, wp_metaAt, hx]
    simp only [wp_bind]
    refine wp_assertFillParams h (h.known_of_waits hx hst) fun e he hired => ?_
    apply wp_conseq (wp_outputResult_wrote hx hst)
    intro _ t ht
    exact .results hx hst he hired.nulFree ht

theorem Move.heard {d d' : Config} (hm : Move d d') (hd : d.1.Holds table d.2.co) :
    d.2.Heard d'.2 := by
  by_cases hev : ∀ f fd fds, d.1 ≠ .events f (fd :: fds)
  · exact .silent (silent_footprint.allows.move hm (fun _ _ _ => ⟨⟨rfl, le_rfl⟩, rfl⟩) hev)
  cases hm with
  | handled hc hr =>
    obtain ⟨x, p, hx, hst, hrun⟩ := handled_run hd hc hr
    exact handler_heard hd.1 hx hst hrun
  | denied hc hx hp hr => exact handler_heard hd.1 hx (waits_of_phaseOf hd hc hx hp) hr
  | _ => exact absurd (by simp) hev

end

/-! The whole result file. -/

/-- Client `c` has been told to measure for `m`, and neither is it done since nor is `m` over. -/
structure Measuring (c : ℕ) (m : UInt32) (es : List Event) : Prop where
  told : .sent c m .measure ∈ es
  going : .confirmed c m .measure ∉ es
  running : ¬ IsOver m es

theorem Event.abs_injective : Function.Injective Event.abs := by
  intro e e' h
  cases e <;> cases e' <;> simp only [Event.abs, Barrier.Event.opened.injEq,
    Barrier.Event.joined.injEq, Barrier.Event.sent.injEq, Barrier.Event.confirmed.injEq,
    Barrier.Event.closed.injEq, reduceCtorEq, and_false, and_true] at h
  · rw [h]
  · rw [h.1, h.2]
  · rw [h.1, h.2.1, Phase.index_injective h.2.2]
  · rw [h.1, h.2.1, Phase.index_injective h.2.2]
  · rw [h]
  · rw [h]

/-- What the history says about a client in the last phase. -/
theorem Coherent.measuring {table : Msms} {s : Coord} {c : ℕ} {x : Meta} (h : Coherent table s)
    (hx : s.metas[c]? = some x) (hst : x.state = .measuring) :
    s.msms.stateOf x.currentMId = some .inProgress ∧ Measuring c x.currentMId s.trace := by
  have hmem := List.mem_of_getElem? hx
  have hcur : x.currentMId ≠ 0 := fun h0 => by
    rw [(h.idle hmem h0).2.1] at hst
    cases hst
  have hplace : s.crew.place c = some (x.currentMId, 7) :=
    Coord.crew_place.mpr ⟨x, hx, by rw [Meta.place_of_ne hcur, hst]; rfl⟩
  have hrun : s.crew.status x.currentMId = .running := (h.seen.placed hplace).1
  have hpast := (marks_nodup (fun _ => rfl) h.runs).2
  refine ⟨h.owner_live hmem hcur, ?_, fun hin => ?_, fun hin => ?_⟩
  · obtain ⟨e, he, habs⟩ := List.mem_map.mp (h.seen.moved hplace 3 le_rfl)
    have heq : e = .sent c x.currentMId .measure := Event.abs_injective habs
    exact heq ▸ he
  · obtain ⟨k, hk, hp⟩ := (hpast _ (List.mem_map_of_mem hin)).2 hrun
    obtain rfl : 7 = k := by simpa [hplace] using hp
    exact absurd hk (by decide)
  · have hover : s.crew.status x.currentMId = .over := by
      rcases hin with hin | hin <;> exact hpast _ (List.mem_map_of_mem hin)
    rw [hrun] at hover
    cases hover

/-- One read of results: at `tick`, and after the history `past`, from `client` for `msm`. -/
structure Chunk where
  tick : ℕ
  client : ℕ
  msm : Measurement
  past : List Event

/-- What is written for it, with the answers of the outside and the clients of the client file. -/
def Chunk.lines (script : ℕ → Answer) (clients : List Meta) (k : Chunk) : List ResultLine :=
  match clients[k.client]? with
  | none => []
  | some x => readingLines k.msm x (script k.tick)

/-- The read `k` is what the move from `d` to `d'` does: it takes the answer at the tick of `k`,
with the history that `k` notes, and writes what the measuring client has sent. -/
structure Chunk.MadeBy (script : ℕ → Answer) (clients : List Meta) (k : Chunk) (d d' : Config) :
    Prop where
  move : Move d d'
  tick : d.2.os.tick = k.tick
  later : k.tick < d'.2.os.tick
  past : d.2.co.trace = k.past
  client : ∃ x, d.2.co.metas[k.client]? = some x ∧ x.currentMId = k.msm.id ∧ x.state = .measuring
  out : d'.2.os.out = d.2.os.out ++ k.lines script clients

/-- The results at `d` are those of the reads `chunks`. Each was made by a move on the way to `d`,
while the client was measuring. -/
structure Attributed (r : Round) (ms : List Measurement) (clients : List Meta)
    (chunks : List Chunk) (d : Config) : Prop where
  out : d.2.os.out = r.os.out ++ chunks.flatMap (Chunk.lines r.os.script clients)
  ticks : (chunks.map Chunk.tick).Pairwise (· < ·)
  before : ∀ k ∈ chunks, k.tick < d.2.os.tick
  loaded : ∀ k ∈ chunks, k.msm ∈ ms
  names : ∀ k ∈ chunks, k.msm.NulFree
  made : ∀ k ∈ chunks, ∃ c c', Reach r c ∧ k.MadeBy r.os.script clients c c' ∧ Walk c' d
  measuring : ∀ k ∈ chunks, Measuring k.client k.msm.id k.past

theorem readingLines_congr {e e' : Measurement} {x x' : Meta} (hplan : e.plan = e'.plan)
    (hwho : x.who = x'.who) (a : Answer) : readingLines e x a = readingLines e' x' a := by
  have hid : e.id = e'.id := by
    simpa only [Measurement.plan_id] using congrArg Measurement.id hplan
  have hfp : e.fp = e'.fp := fp_of_plan hplan
  obtain ⟨hcls, hhost, hport, -⟩ : x.cls = x'.cls ∧ x.host = x'.host ∧ x.port = x'.port ∧ _ := by
    simpa only [Meta.who, Prod.mk.injEq] using hwho
  have hline : ∀ t, resultLine e.id (utf8 e.fp) t x = resultLine e'.id (utf8 e'.fp) t x' :=
    fun t => funext fun token => by simp only [resultLine, hid, hfp, hcls, hhost, hport]
  simp only [readingLines, resultLines, hline]

section
variable {r : Round} {ms : List Measurement} {clients : List Meta} {chunks : List Chunk}
  {table : Msms} {m : Measurement} {p : Point} {s : Loop} {d d' : Config}

theorem Attributed.silent (h : Attributed r ms clients chunks d) (hs : d.2.Silent d'.2)
    (hm : Move d d') : Attributed r ms clients chunks d' where
  out := hs.out.trans h.out
  ticks := h.ticks
  before k hk := (h.before k hk).trans_le hs.tick
  loaded := h.loaded
  names := h.names
  made k hk := by
    obtain ⟨c, c', hc, hmade, hw⟩ := h.made k hk
    exact ⟨c, c', hc, hmade, hw.tail hm⟩
  measuring := h.measuring

/-- One more read. -/
theorem Attributed.snoc {k : Chunk} (h : Attributed r ms clients chunks d) (hreach : Reach r d)
    (hk : k.MadeBy r.os.script clients d d') (hmem : k.msm ∈ ms) (hnul : k.msm.NulFree)
    (hmeasure : Measuring k.client k.msm.id k.past) :
    Attributed r ms clients (chunks ++ [k]) d' where
  out := by rw [hk.out, h.out, List.flatMap_append, List.flatMap_singleton, List.append_assoc]
  ticks := by
    rw [List.map_append, List.map_singleton, List.pairwise_append]
    refine ⟨h.ticks, List.pairwise_singleton _ _, fun i hi j hj => ?_⟩
    obtain ⟨k', hk', rfl⟩ := List.mem_map.mp hi
    rw [List.mem_singleton.mp hj, ← hk.tick]
    exact h.before k' hk'
  before := List.forall_mem_append.mpr
    ⟨fun k' hk' => (h.before k' hk').trans (hk.tick ▸ hk.later),
      List.forall_mem_singleton.mpr hk.later⟩
  loaded := List.forall_mem_append.mpr ⟨h.loaded, List.forall_mem_singleton.mpr hmem⟩
  names := List.forall_mem_append.mpr ⟨h.names, List.forall_mem_singleton.mpr hnul⟩
  made := List.forall_mem_append.mpr ⟨fun k' hk' => by
      obtain ⟨c, c', hc, hmade, hw⟩ := h.made k' hk'
      exact ⟨c, c', hc, hmade, hw.tail hk.move⟩,
    List.forall_mem_singleton.mpr ⟨d, d', hreach, hk, .refl⟩⟩
  measuring := List.forall_mem_append.mpr ⟨h.measuring, List.forall_mem_singleton.mpr hmeasure⟩

/-- What is known in a run about the results. -/
def Provenance (r : Round) (clients : List Meta) (ms : List Measurement) (d : Config) : Prop :=
  d.2.os.script = r.os.script ∧ d.2.co.metas.map Meta.who = clients.map Meta.who ∧
    ∃ chunks, Attributed r ms clients chunks d

theorem provenance_start (hclients : tcClientFileRead r.clientFile = .ok clients)
    (hs : r.start = .ok (some s)) : Provenance r clients ms (.head, s) := by
  obtain ⟨hos, -, hread, -⟩ := Round.start_os hs
  obtain rfl : s.co.metas = clients := Except.ok.inj (hread.symm.trans hclients)
  refine ⟨congrArg Os.script hos, rfl, [], ?_, ?_, ?_, ?_, ?_, ?_, ?_⟩
  · rw [hos, List.flatMap_nil, List.append_nil]
  all_goals simp

theorem provenance_move (hl : Loaded r ms table) (hreach : Reach r d)
    (hd : d.1.Holds table d.2.co) (hm : Move d d') (h : Provenance r clients ms d) :
    Provenance r clients ms d' := by
  obtain ⟨hscript, hwho, chunks, hat⟩ := h
  have hwho' := hm.extends.who.trans hwho
  have hco : Coherent table d.2.co := hd.coherent.1
  cases hm.heard hd with
  | silent hs => exact ⟨hs.script.trans hscript, hwho', chunks, hat.silent hs hm⟩
  | @results c x e hx hst he hnul hw =>
    obtain ⟨hlive, hmeasure⟩ := hco.measuring hx hst
    have hstate : e.state = .inProgress := by
      simpa [Msms.stateOf, he] using hlive
    obtain ⟨m, hmem, hplan⟩ := hco.in_schedule hl he (by rw [hstate]; rintro ⟨⟩)
    have hid : x.currentMId = m.id := by
      rw [← Msms.get?_id he]
      simpa only [Measurement.plan_id] using congrArg Measurement.id hplan
    have hc : clients[c]?.map Meta.who = some x.who := by
      rw [← List.getElem?_map, ← hwho, List.getElem?_map, hx, Option.map_some]
    obtain ⟨y, hy, hxy⟩ := Option.map_eq_some_iff.mp hc
    have hlines : Chunk.lines r.os.script clients ⟨d.2.os.tick, c, m, d.2.co.trace⟩ =
        readingLines e x (d.2.os.script d.2.os.tick) := by
      rw [Chunk.lines, hy, hscript]
      exact (readingLines_congr hplan hxy.symm _).symm
    have hmade : Chunk.MadeBy r.os.script clients ⟨d.2.os.tick, c, m, d.2.co.trace⟩ d d' :=
      ⟨hm, rfl, hw.tick, rfl, ⟨x, hx, hid, hst⟩, hlines ▸ hw.out⟩
    exact ⟨hw.script.trans hscript, hwho', _, hat.snoc hreach hmade hmem
      (nulFree_of_plan hplan.symm hnul) (hid ▸ hmeasure)⟩

theorem Reach.provenance (h : Reach r d) (hms : parseLines r.lines = .ok ms)
    (hclients : tcClientFileRead r.clientFile = .ok clients) : Provenance r clients ms d := by
  refine h.induction_moves (fun hs _ => provenance_start hclients hs) fun hreach hm hprov => ?_
  obtain ⟨ms', table, hl, hd⟩ := hreach.holds
  obtain rfl : ms' = ms := Except.ok.inj (hl.parsed.symm.trans hms)
  exact provenance_move hl hreach hd hm hprov

/-- In every run the result file is the file as it was, and then, read by read, what the clients
have sent. Each read has been made by a move of the run, when the history said that the client was
measuring for a measurement of the schedule. -/
theorem results_attributed (h : Reach r (p, s)) (hms : parseLines r.lines = .ok ms)
    (hclients : tcClientFileRead r.clientFile = .ok clients) :
    ∃ chunks, Attributed r ms clients chunks (p, s) := by
  obtain ⟨-, -, hchunks⟩ := h.provenance hms hclients
  exact hchunks

/-- A file that was new holds the reads. -/
theorem Attributed.reads (h : Attributed r ms clients chunks (p, s)) (hnew : r.os.out = []) :
    s.os.out = chunks.flatMap (Chunk.lines r.os.script clients) := by
  simpa only [hnew, List.nil_append] using h.out

end

/-- The two clients send results, and each read of them is a move of the run. -/
theorem results_attributed_twoClients : ∃ chunks : List Chunk, chunks ≠ [] ∧
    (twoClientsStart.after 5).os.out =
      chunks.flatMap (Chunk.lines twoClients.os.script twoClientsStart.co.metas) ∧
    ∀ k ∈ chunks, k.msm ∈ twoClientsSchedule ∧ ∃ c c', Reach twoClients c ∧
      k.MadeBy twoClients.os.script twoClientsStart.co.metas c c' ∧
      Walk c' (.head, twoClientsStart.after 5) := by
  have hclients : tcClientFileRead twoClients.clientFile = .ok twoClientsStart.co.metas := rfl
  obtain ⟨chunks, hat⟩ := results_attributed (twoClients_atHead (Nat.le_refl 5)).reach
    parseLines_twoClients hclients
  refine ⟨chunks, ?_, hat.reads rfl, fun k hk => ⟨hat.loaded k hk, hat.made k hk⟩⟩
  rintro rfl
  have hout : (twoClientsStart.after 5).os.out = [] := hat.reads rfl
  have hsent : (twoClientsStart.after 5).os.out.length = 2 := by decide +kernel
  rw [hout] at hsent
  cases hsent

end Flashflow
