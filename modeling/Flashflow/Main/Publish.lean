import Flashflow.Main.Process

/-! What a call of `main_loop_once` leaves in the file system: the results of its clients and the
bandwidths that follow from them, and everything that earlier calls have left. -/
namespace Flashflow
open Sched Program Outcome FileSystem

section Files
variable {D : Type} [DecidableEq D] {w w' : World D} {names : Set Bytes} {f text : Bytes}

/-- A new file with the `text` is where the name `f` leads, and all other files are as before. -/
structure Wrote (f text : Bytes) (w w' : World D) : Prop where
  kept : w.disk.Keeps w'.disk
  made : w.disk.files < w'.disk.files
  leads : ∀ i, ResolvesTo w'.disk f i ↔ i = w.disk.files
  content : w'.disk.content w.disk.files = text

theorem wrote_of_runRound {r : OutputRound} (h : Ready w.disk {f | f ∈ names ∧ f ≠ []})
    (hr : r.fname ∈ names) (hfree : HasNumber w r.fname) (hrun : runRound w r = .ok w')
    (hok : w'.Succeeds) : Wrote r.fname r.texts.flatten w w' := by
  obtain ⟨n, hn⟩ := exists_firstFree hfree
  have hmem : r.fname ∈ {f | f ∈ names ∧ f ≠ []} := ⟨hr, ne_nil_of_runRound hn hrun hok⟩
  obtain ⟨d, ht⟩ := turned_of_runRound h hmem hn hrun hok
  have hlink := ht.resolvesTo (h.proper _ hmem)
  refine ⟨ht.keeps, w'.disk.made ht.file, fun i => ⟨fun hi => hi.unique hlink, ?_⟩, ht.content⟩
  rintro rfl
  exact hlink

/-- `v3bw_generate` either does nothing or is a round of its output. -/
theorem v3bwGenerateFile_cases {rank : Bytes → ℕ} {now : ℕ} {ret : Int} {outFname : Bytes}
    (h : v3bwGenerateFile rank now f outFname w = .ok (ret, w'))
    (hread : ∀ i, w.openRead f = some i → i < w.disk.files ∧ w.disk.content i = text) :
    (w.openRead f = none ∨ ¬ HasNumber w outFname) ∧ w' = w ∨
      (w.openRead f).isSome ∧ HasNumber w outFname ∧ ∃ nodes, v3bwGenerate rank text = .ok nodes ∧
        runRound w ⟨outFname, (decimal now ++ bytes "\n") :: nodes.map NodeLine.text⟩ = .ok w' := by
  cases hopen : w.openRead f with
  | none =>
    simp only [v3bwGenerateFile, hopen, Except.ok.injEq, Prod.mk.injEq] at h
    exact .inl ⟨.inl rfl, h.2.symm⟩
  | some i =>
    obtain ⟨hi, hcontent⟩ := hread i hopen
    rw [v3bwGenerateFile_eq hopen hi, v3bwGenerateFrom, hcontent] at h
    by_cases hfree : HasNumber w outFname
    · obtain ⟨n, hn⟩ := exists_firstFree hfree
      rw [rfdOpen_eq hn] at h
      obtain ⟨nodes, hnodes, h⟩ := bind_eq_ok.mp h
      obtain ⟨w₁, hwrites, h⟩ := bind_eq_ok.mp h
      obtain ⟨w₂, hclose, h⟩ := bind_eq_ok.mp h
      obtain ⟨-, rfl⟩ := Prod.mk.inj (pure_eq_ok.mp h)
      refine .inr ⟨rfl, hfree, nodes, mapError_eq_ok.mp hnodes, ?_⟩
      simp only [runRound, rfdOpen_eq hn, hwrites]
      exact hclose
    · rw [rfdOpen_eq_none hfree] at h
      obtain ⟨-, rfl⟩ := Prod.mk.inj (Except.ok.inj h)
      exact .inl ⟨.inr hfree, rfl⟩

/-- Some rounds of output with the `names` lead from `w` to `w'`. -/
def Rounds (names : Set Bytes) (w w' : World D) : Prop :=
  ∃ rs : List OutputRound, (∀ r ∈ rs, r.fname ∈ names) ∧ rs.foldlM runRound w = .ok w'

theorem Rounds.refl (w : World D) : Rounds names w w := ⟨[], by simp, rfl⟩

theorem Rounds.cons {r : OutputRound} {w₁ : World D} (hr : r.fname ∈ names)
    (hround : runRound w r = .ok w₁) (h : Rounds names w₁ w') : Rounds names w w' := by
  obtain ⟨rs, hrs, hrun⟩ := h
  refine ⟨r :: rs, List.forall_mem_cons.mpr ⟨hr, hrs⟩, ?_⟩
  rw [List.foldlM_cons, hround]
  exact hrun

theorem Rounds.succeeds (h : Rounds names w w') (hok : w'.Succeeds) : w.Succeeds := by
  obtain ⟨rs, -, hrun⟩ := h
  induction rs generalizing w with
  | nil =>
    cases hrun
    exact hok
  | cons r rs ih =>
    obtain ⟨w₁, hround, hrest⟩ := bind_eq_ok.mp hrun
    exact succeeds_of_runRound hround (ih hrest)

/-- Rounds leave the names fit for the next one, and all files as they were. -/
theorem Rounds.ready (h : Rounds names w w') (hready : Ready w.disk {f | f ∈ names ∧ f ≠ []})
    (hok : w'.Succeeds) : Ready w'.disk {f | f ∈ names ∧ f ≠ []} ∧ w.disk.Keeps w'.disk := by
  obtain ⟨rs, hrs, hrun⟩ := h
  induction rs generalizing w with
  | nil =>
    cases hrun
    exact ⟨hready, .refl _⟩
  | cons r rs ih =>
    obtain ⟨w₁, hround, hrest⟩ := bind_eq_ok.mp hrun
    obtain ⟨hr, hrs⟩ := List.forall_mem_cons.mp hrs
    have hok₁ : w₁.Succeeds := Rounds.succeeds ⟨rs, hrs, hrest⟩ hok
    obtain ⟨hready₁, hkeeps₁⟩ := hready.runRound hr hround hok₁
    obtain ⟨hready', hkeeps⟩ := ih hready₁ hrs hrest
    exact ⟨hready', hkeeps₁.trans hkeeps⟩

end Files

section Calls
variable {D : Type} [DecidableEq D] {argv : Argv} {o : Outside} {n : ℕ} {p p' : Process D}
  {w : World D} {t : Loop}

/-- The names of the output. -/
def Argv.outputs (argv : Argv) : Set Bytes := {argv.msmOutFname, argv.v3bwOutFname}

theorem Argv.msmOutFname_mem (argv : Argv) : argv.msmOutFname ∈ argv.outputs := .inl rfl

theorem Argv.v3bwOutFname_mem (argv : Argv) : argv.v3bwOutFname ∈ argv.outputs := .inr rfl

theorem Returned.rounds_generated (h : Returned argv o p p' t w) {w' : World D}
    (hrest : Rounds argv.outputs p'.world w') : Rounds argv.outputs w w' := by
  obtain ⟨ret, hgen⟩ := h.generated
  unfold v3bwGenerateFile at hgen
  split at hgen
  · cases hgen
    exact hrest
  · obtain ⟨texts, htexts⟩ := v3bwGenerateFrom_round hgen
    exact hrest.cons argv.v3bwOutFname_mem htexts

/-- The calls of `main` are rounds of output. -/
theorem mainCalls_rounds {calls : List (Outside × ℕ)} (h : mainCalls argv calls p = .ok (some p'))
    (hp : p.Between) : p'.Between ∧ Rounds argv.outputs p.world p'.world :=
  mainCalls_induction (I := fun p p' => Rounds argv.outputs p.world p'.world) h hp
    (fun p => .refl p.world) fun _ hret hrest =>
      (hret.rounds_generated hrest).cons argv.msmOutFname_mem hret.wrote

/-- The bandwidth file for the nodes. -/
def v3bwText (time : ℕ) (nodes : List NodeLine) : Bytes :=
  decimal time ++ bytes "\n" ++ nodes.flatMap NodeLine.text

/-- What each call of `main_loop_once` leaves behind: a file with the results of its round, and
unless these cannot be read or there is no name left, a file with the bandwidths of the relays for
which clients have sent results in this round. No later call changes these files. -/
theorem calls_publish {p'' : Process D} {disk₀ : Disk D Bytes UInt8} {fds : List ℕ}
    {calls later : List (Outside × ℕ)} (h₀ : Rotatable disk₀ argv.outputs)
    (hcalls : mainCalls argv calls ⟨.empty, fds, ⟨disk₀, []⟩⟩ = .ok (some p))
    (hcall : mainLoopOnce argv o n p = .ok (some p'))
    (hlater : mainCalls argv later p' = .ok (some p'')) (hok : p''.world.Succeeds) :
    ∃ ms clients chunks w, parseLines o.lines = .ok ms ∧
      tcClientFileRead o.clientFile = .ok clients ∧
      (∃ t, AtHead (p.round o) t ∧ Attributed (p.round o) ms clients chunks (.head, t) ∧
        ∀ m ∈ ms, .failed m.id ∈ t.co.trace ∨ .succeeded m.id ∈ t.co.trace) ∧
      Wrote argv.msmOutFname
        ((chunks.flatMap (Chunk.lines o.script clients)).flatMap ResultLine.render) p.world w ∧
      ((w.openRead argv.msmOutFname = none ∨ ¬ HasNumber w argv.v3bwOutFname) ∧ p'.world = w ∨
        ∃ nodes, Published o.script clients chunks nodes ∧
          Wrote argv.v3bwOutFname (v3bwText o.time nodes) w p'.world) ∧
      p'.world.disk.Keeps p''.world.disk := by
  obtain ⟨hbetween, hbefore⟩ := mainCalls_rounds hcalls (.inl rfl)
  obtain ⟨t, w, hret⟩ := returned_of_ok hcall hbetween
  obtain ⟨s, hs⟩ := hret.start
  obtain ⟨ms, hms, -⟩ := Round.start_ok hs
  obtain ⟨-, -, hclients, -⟩ := Round.start_os hs
  obtain ⟨-, -, chunks, hat⟩ := hret.head.reach.provenance hms hclients
  obtain ⟨-, hafter⟩ := mainCalls_rounds hlater hret.between
  have hok' : p'.world.Succeeds := hafter.succeeds hok
  have hwok : w.Succeeds := (hret.rounds_generated (.refl _)).succeeds hok'
  have hready := (hbefore.ready h₀.ready (succeeds_of_runRound hret.wrote hwok)).1
  have hready' := (hready.runRound argv.msmOutFname_mem hret.wrote hwok).1
  have hready'' := ((hret.rounds_generated (.refl _)).ready hready' hok').1
  have hwrote := wrote_of_runRound hready argv.msmOutFname_mem hret.hasNumber hret.wrote hwok
  have hresults : t.results.flatten = t.os.out.flatMap ResultLine.render := List.flatMap_def.symm
  have hout : t.os.out = chunks.flatMap (Chunk.lines o.script s.co.metas) := hat.reads rfl
  refine ⟨ms, _, chunks, w, hms, hclients,
    ⟨t, hret.head, hat, hret.head.all_over hms hret.finished⟩, ?_, ?_,
    (hafter.ready hready'' hok).2⟩
  · rw [← hout, ← hresults]
    exact hwrote
  obtain ⟨ret, hgen⟩ := hret.generated
  have hread : ∀ i, w.openRead argv.msmOutFname = some i →
      i < w.disk.files ∧ w.disk.content i = t.os.out.flatMap ResultLine.render := by
    intro i hi
    obtain rfl := (hwrote.leads i).mp (resolvesTo_of_openRead hi)
    exact ⟨hwrote.made, hwrote.content.trans hresults⟩
  rcases v3bwGenerateFile_cases hgen hread with hnone | ⟨-, hnumber, nodes, hnodes, hround⟩
  · exact .inl hnone
  refine .inr ⟨nodes, ?_, ?_⟩
  · rcases hat.published hms hclients o.clean rfl o.v3bwRank with herr | ⟨nodes', hok', hpub⟩
    · rw [hnodes] at herr
      cases herr
    · obtain rfl := Except.ok.inj (hnodes.symm.trans hok')
      exact hpub
  · have hw := wrote_of_runRound hready' argv.v3bwOutFname_mem hnumber hround hok'
    rwa [List.flatten_cons, ← List.flatMap_def] at hw

end Calls

/-- Two calls. -/
theorem calls_publish_twice : ∃ (p p' : Process Unit) (chunks : List Chunk)
    (clients : List Meta) (nodes : List NodeLine) (i : ℕ),
    mainCalls exampleArgv [(measuredOutside, 5)] bootedProcess = .ok (some p) ∧
    mainLoopOnce exampleArgv measuredOutside 5 p = .ok (some p') ∧
    Published measuredOutside.script clients chunks nodes ∧
    ResolvesTo p'.world.disk (bytes "v3bw") i ∧ p'.world.disk.content i = v3bwText 100 nodes := by
  have hruns : ((mainCalls exampleArgv [(measuredOutside, 5)] bootedProcess).toOption.join.bind
      fun p => (mainLoopOnce exampleArgv measuredOutside 5 p).toOption.join.map fun p' =>
        ((p'.world.openRead exampleArgv.msmOutFname).isSome,
          p'.world.access (numbered exampleArgv.v3bwOutFname 2), p'.world.failures)) =
      some (true, false, List.replicate 2 (.unlink .absent)) := by decide +kernel
  obtain ⟨p, hp, hlast⟩ := Option.bind_eq_some_iff.mp hruns
  obtain ⟨p', hp', hend⟩ := Option.map_eq_some_iff.mp hlast
  obtain ⟨hread, hnumber, hfailures⟩ : (p'.world.openRead exampleArgv.msmOutFname).isSome = true ∧
      p'.world.access (numbered exampleArgv.v3bwOutFname 2) = false ∧
      p'.world.failures = List.replicate 2 (.unlink .absent) := by
    simpa only [Prod.mk.injEq] using hend
  have hcalls := eq_ok_of_toOption (Option.join_eq_some_iff.mp hp)
  have hcall := eq_ok_of_toOption (Option.join_eq_some_iff.mp hp')
  have hok : p'.world.Succeeds := by
    intro e he
    rw [hfailures] at he
    exact List.eq_of_mem_replicate he
  obtain ⟨-, clients, chunks, w, -, -, -, -, hpub, -⟩ :=
    calls_publish rotatable_exampleDisk hcalls hcall (rfl : mainCalls exampleArgv [] p' = _) hok
  rcases hpub with ⟨hnone | hnone, rfl⟩ | ⟨nodes, hnodes, hwrote⟩
  · rw [hnone] at hread
    cases hread
  · exact absurd ⟨2, by decide, hnumber⟩ hnone
  · exact ⟨p, p', chunks, clients, nodes, _, hcalls, hcall, hnodes, (hwrote.leads _).mpr rfl,
      hwrote.content⟩

end Flashflow
