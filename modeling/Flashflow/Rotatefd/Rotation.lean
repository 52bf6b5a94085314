import Flashflow.Rotatefd.Rounds

/-! Output over many rounds: every round writes a file of its own, and the name that was asked for
leads to the file of the last one. -/
namespace Flashflow
open Outcome FileSystem

/-- The file system is as the names of the output need it at the start. Names are the same, or
numbered names of each other, if they lead to the same place. -/
structure Rotatable {D : Type} (disk : Disk D Bytes UInt8) (names : Set Bytes) : Prop where
  noSlash : ∀ f ∈ names, f.getLast? ≠ some 0x2F
  requested : ∀ f ∈ names, ∀ p, Named disk false f p →
    ∃ d b, p = .name d b ∧ ∀ e, disk.entries d b = some e → ∃ q, e = .link q
  rotated : ∀ f ∈ names, ∀ n < 1000, ∀ d b, Named disk false (numbered f n) (.name d b) →
    ∀ q, disk.entries d b ≠ some (.link q)
  apart : ∀ f ∈ names, ∀ g ∈ names, f ≠ g → ∀ n < 1000, ∀ p,
    Named disk false (numbered f n) p → ¬ Named disk false g p

section Names
variable {D : Type} {disk : Disk D Bytes UInt8} {names : Set Bytes}

theorem Rotatable.proper (h : Rotatable disk names) {f : Bytes} (hf : f ∈ names) (hne : f ≠ []) :
    Proper f := by
  refine ⟨f.getLast hne, List.getLast?_eq_some_getLast hne, ?_⟩
  have hslash := h.noSlash f hf
  rw [List.getLast?_eq_some_getLast hne] at hslash
  simpa using hslash

/-- The conditions on places, for the directories in which the names stand. -/
theorem Rotatable.ready (h : Rotatable disk names) :
    Ready disk {f | f ∈ names ∧ f ≠ []} := by
  have hproper : ∀ f ∈ {f | f ∈ names ∧ f ≠ []}, Proper f := fun f hf => h.proper hf.1 hf.2
  have hrequested : ∀ f ∈ {f | f ∈ names ∧ f ≠ []}, ∀ d, InDir disk f d →
      ∀ e, disk.entries d (myBasename f) = some e → ∃ q, e = .link q := by
    intro f hf d hd e he
    cases e with
    | dir x =>
      have hnamed : Named disk false f (.dir x) :=
        (hproper f hf).named_iff.mpr ⟨d, hd, .down he (.here x)⟩
      obtain ⟨d', b, hp, -⟩ := h.requested f hf.1 _ hnamed
      cases hp
    | file i =>
      have hnamed : Named disk false f (.name d (myBasename f)) :=
        (hproper f hf).named_iff.mpr ⟨d, hd, .name (stops_of_file he)⟩
      obtain ⟨d', b, hp, hlink⟩ := h.requested f hf.1 _ hnamed
      cases hp
      exact hlink _ he
    | link q => exact ⟨q, rfl⟩
  refine ⟨hproper, hrequested, fun f hf n hn d hd q hq => ?_, fun f hf g hg n hn d hd hd' hb => ?_⟩
  · have hnamed := (hproper f hf).named_append_iff (suffix_clean n) |>.mpr
      ⟨d, hd, .name (stops_of_link hq)⟩
    exact h.rotated f hf.1 n hn _ _ hnamed q hq
  · by_cases hfg : f = g
    · subst hfg
      exact ne_append_suffix _ n hb
    · have hstops : Stops disk.entries false d (myBasename g) := by
        intro e he
        exact .inr ⟨rfl, hrequested g hg d hd' e he⟩
      have hnamed := (hproper g hg).named_iff.mpr ⟨d, hd', .name hstops⟩
      rw [hb] at hstops hnamed
      exact h.apart f hf.1 g hg.1 hfg n hn _
        ((hproper f hf).named_append_iff (suffix_clean n) |>.mpr ⟨d, hd, .name hstops⟩) hnamed

end Names

section Runs
variable {D : Type} [DecidableEq D] {w w' : World D} {names : Set Bytes} {r : OutputRound}
  {i : ℕ} {f : Bytes}

theorem runRound_of_none (h : ¬ ∃ n < 1000, w.access (numbered r.fname n) = false) :
    runRound w r = .ok w := by
  unfold runRound
  rw [rfdOpen_eq_none h]
  rfl

/-- What has failed is not forgotten. -/
theorem succeeds_of_runRound (h : runRound w r = .ok w') (hok : w'.Succeeds) : w.Succeeds := by
  by_cases hfree : ∃ n < 1000, w.access (numbered r.fname n) = false
  · obtain ⟨n, hn⟩ := exists_firstFree hfree
    obtain ⟨i, w₁, hopen, rfl⟩ := runRound_eq hn h
    obtain ⟨t, d, m, -, -, -, heq⟩ := symlink_succeeds hok
    rw [heq] at hok
    have hclosed := (unlink_succeeds (w := ⟨_, w₁.failures⟩) hok).1
    obtain ⟨d, m, -, -, -, rfl⟩ := openWrite_fresh hn.free hopen
    exact hclosed
  · rw [runRound_of_none hfree] at h
    cases h
    exact hok

/-- The empty name cannot be made a link. -/
theorem ne_nil_of_runRound {n : ℕ} (hn : FirstFree w r.fname n) (h : runRound w r = .ok w')
    (hok : w'.Succeeds) : r.fname ≠ [] := by
  obtain ⟨i, w₁, -, rfl⟩ := runRound_eq hn h
  obtain ⟨t, d, m, -, ⟨q, hq, -⟩, -⟩ := symlink_succeeds hok
  intro hnil
  simp [path, hnil] at hq

theorem Ready.runRound (h : Ready w.disk {f | f ∈ names ∧ f ≠ []}) (hr : r.fname ∈ names)
    (hrun : runRound w r = .ok w') (hok : w'.Succeeds) :
    Ready w'.disk {f | f ∈ names ∧ f ≠ []} ∧ w.disk.Keeps w'.disk := by
  by_cases hfree : ∃ n < 1000, w.access (numbered r.fname n) = false
  · obtain ⟨n, hn⟩ := exists_firstFree hfree
    have hmem : r.fname ∈ {f | f ∈ names ∧ f ≠ []} := ⟨hr, ne_nil_of_runRound hn hrun hok⟩
    obtain ⟨d, ht⟩ := turned_of_runRound h hmem hn hrun hok
    exact ⟨h.turned hmem hn.lt ht, ht.keeps⟩
  · rw [runRound_of_none hfree] at hrun
    cases hrun
    exact ⟨h, .refl _⟩

/-- The names stay fit over any number of rounds. -/
theorem Ready.foldlM {rs : List OutputRound} (h : Ready w.disk {f | f ∈ names ∧ f ≠ []})
    (hrs : ∀ r ∈ rs, r.fname ∈ names) (hrun : rs.foldlM Flashflow.runRound w = .ok w')
    (hok : w'.Succeeds) : Ready w'.disk {f | f ∈ names ∧ f ≠ []} := by
  induction rs using List.reverseRecOn generalizing w' with
  | nil =>
    cases hrun
    exact h
  | append_singleton rs r ih =>
    rw [List.foldlM_append] at hrun
    obtain ⟨w₁, hrun₁, hlast⟩ := bind_eq_ok.mp hrun
    rw [List.foldlM_cons] at hlast
    obtain ⟨w₂, hround, hnil⟩ := bind_eq_ok.mp hlast
    cases hnil
    have hready := ih (fun r hr => hrs r (by simp [hr])) hrun₁ (succeeds_of_runRound hround hok)
    exact (hready.runRound (hrs r (by simp)) hround hok).1

/-! What `v3bw_generate` reads. -/

omit [DecidableEq D] in
theorem resolvesTo_of_openRead (h : w.openRead f = some i) : ResolvesTo w.disk f i := by
  obtain ⟨q, hq, hopen⟩ := Option.bind_eq_some_iff.mp h
  exact ⟨q, hq, Disk.resolves_iff.mpr ⟨w.disk.maxLinks, hopen⟩⟩

/-- Opening the output changes no file that was there. -/
theorem rfdOpen_content (hi : i < w.disk.files) (f : Bytes) :
    (rfdOpen w f).2.disk.content i = w.disk.content i := by
  by_cases hfree : ∃ n < 1000, w.access (numbered f n) = false
  · obtain ⟨n, hn⟩ := exists_firstFree hfree
    rw [rfdOpen_eq hn]
    cases hopen : w.openWrite (numbered f n) with
    | none => simp only [rfdInit, hopen]
    | some fd =>
      obtain ⟨fd, w₁⟩ := fd
      obtain ⟨d, m, -, hnone, rfl, rfl⟩ := openWrite_fresh hn.free hopen
      simp only [rfdInit, hopen]
      exact (Disk.keeps_create hnone).content i hi
  · rw [rfdOpen_eq_none hfree]

theorem v3bwGenerateFile_eq (hopen : w.openRead f = some i) (hi : i < w.disk.files)
    (rank : Bytes → ℕ) (now : ℕ) (outFname : Bytes) :
    v3bwGenerateFile rank now f outFname w =
      v3bwGenerateFrom rank now (fun _ => w.disk.content i) outFname w := by
  have hcontent := rfdOpen_content hi outFname
  simp only [v3bwGenerateFile, hopen, v3bwGenerateFrom]
  split
  next => rfl
  next rfd w₁ hrfd =>
    rw [hrfd] at hcontent
    rw [hcontent]

/-- `v3bw_generate` is a round of its output, if it opens its input. -/
theorem v3bwGenerateFrom_round {rank : Bytes → ℕ} {now : ℕ} {ret : Int} {outFname : Bytes}
    {input : Disk D Bytes UInt8 → Bytes}
    (h : v3bwGenerateFrom rank now input outFname w = .ok (ret, w')) :
    ∃ texts, runRound w ⟨outFname, texts⟩ = .ok w' := by
  unfold v3bwGenerateFrom at h
  split at h
  next w₁ hopen =>
    cases h
    exact ⟨[], by simp [runRound, hopen, rfdClose]⟩
  next rfd w₁ hopen =>
    obtain ⟨lines, -, h⟩ := bind_eq_ok.mp h
    obtain ⟨w₂, hwrites, h⟩ := bind_eq_ok.mp h
    obtain ⟨w₃, hclose, h⟩ := bind_eq_ok.mp h
    cases h
    refine ⟨(decimal now ++ bytes "\n") :: lines.map NodeLine.text, ?_⟩
    simp only [runRound, hopen, hwrites]
    exact hclose

/-- After any rounds: a round changes no file that was there; if a numbered name is free it takes
the first one, and then the name leads to its file with what was written, which `v3bw_generate`
reads. -/
theorem rounds_rotate {disk₀ : Disk D Bytes UInt8} (h₀ : Rotatable disk₀ names)
    {rs : List OutputRound} (hrs : ∀ r ∈ rs, r.fname ∈ names)
    (hrun : rs.foldlM runRound ⟨disk₀, []⟩ = .ok w) (hr : r.fname ∈ names) :
    (∀ w', runRound w r = .ok w' → w'.Succeeds → w.disk.Keeps w'.disk) ∧
    ((∃ n < 1000, w.access (numbered r.fname n) = false) →
      ∃ n rfd w₁, FirstFree w r.fname n ∧ rfdOpen w r.fname = (some rfd, w₁) ∧
        rfd.fname = numbered r.fname n ∧
        ∀ w', runRound w r = .ok w' → w'.Succeeds →
          ∃ i, rfd.fd = some i ∧ w.disk.files ≤ i ∧
            (∀ j, ResolvesTo w'.disk (numbered r.fname n) j ↔ j = i) ∧
            (∀ j, ResolvesTo w'.disk r.fname j ↔ j = i) ∧
            w'.disk.content i = r.texts.flatten ∧
            ∀ rank now outFname, (w'.openRead r.fname).isSome →
              v3bwGenerateFile rank now r.fname outFname w' =
                v3bwGenerateFrom rank now (fun _ => r.texts.flatten) outFname w') := by
  have hready : ∀ {w'}, runRound w r = .ok w' → w'.Succeeds →
      Ready w.disk {f | f ∈ names ∧ f ≠ []} := fun hround hok =>
    h₀.ready.foldlM (w := ⟨disk₀, []⟩) hrs hrun (succeeds_of_runRound hround hok)
  refine ⟨fun w' hround hok => ((hready hround hok).runRound hr hround hok).2, fun hfree => ?_⟩
  obtain ⟨n, hn⟩ := exists_firstFree hfree
  refine ⟨n, _, _, hn, rfdOpen_eq hn, ?_, fun w' hround hok => ?_⟩
  · unfold rfdInit
    split <;> rfl
  have hmem : r.fname ∈ {f | f ∈ names ∧ f ≠ []} := ⟨hr, ne_nil_of_runRound hn hround hok⟩
  have hf := (hready hround hok).proper _ hmem
  obtain ⟨d, ht⟩ := turned_of_runRound (hready hround hok) hmem hn hround hok
  have hlink := ht.resolvesTo hf
  have hfile := ht.resolvesTo_numbered hf
  have hnew : w.disk.files < w'.disk.files := w'.disk.made ht.file
  refine ⟨w.disk.files, ?_, Nat.le_refl _, fun j => ⟨fun h => h.unique hfile, ?_⟩,
    fun j => ⟨fun h => h.unique hlink, ?_⟩, ht.content, fun rank now outFname hsome => ?_⟩
  · obtain ⟨i, w₁, hopen, -⟩ := runRound_eq hn hround
    obtain ⟨-, -, -, -, rfl, -⟩ := openWrite_fresh hn.free hopen
    simp only [rfdInit, hopen]
  · rintro rfl
    exact hfile
  · rintro rfl
    exact hlink
  · obtain ⟨j, hj⟩ := Option.isSome_iff_exists.mp hsome
    obtain rfl := (resolvesTo_of_openRead hj).unique hlink
    rw [v3bwGenerateFile_eq hj hnew, ht.content]

end Runs

/-! A directory in which the second number is taken. -/

def exampleDisk : Disk Unit Bytes UInt8 where
  root := ()
  cwd := ()
  entries _ n := if n = bytes "msm.1" then some (.file 0) else none
  content _ := []
  files := 1
  made h := by
    split at h
    · cases h
      exact Nat.one_pos
    · cases h
  maxLinks := 40

theorem named_exampleDisk {f : Bytes} {p : Place Unit Bytes} {follow : Bool}
    (hf : ∀ x ∈ f, isSlash x = false) (hne : f ≠ []) (h : Named exampleDisk follow f p) :
    p = .name () f := by
  have hproper : Proper f := ⟨_, List.getLast?_eq_some_getLast hne, hf _ (List.getLast_mem hne)⟩
  obtain ⟨q, hq, -, hnames⟩ := hproper.path_eq
  obtain ⟨q', hq', h⟩ := h
  obtain rfl := Option.some.inj (hq.symm.trans hq')
  rw [Tokens.tokens_clean hf hne] at hnames
  rw [Disk.Finds, hnames] at h
  cases h with
  | down he _ => simp [exampleDisk] at he
  | along he _ _ => simp [exampleDisk] at he
  | name _ => rfl

theorem rotatable_exampleDisk : Rotatable exampleDisk {bytes "msm", bytes "v3bw"} := by
  have hclean : ∀ f ∈ ({bytes "msm", bytes "v3bw"} : Set Bytes),
      (∀ x ∈ f, isSlash x = false) ∧ f ≠ [] ∧ exampleDisk.entries () f = none := by
    rintro f (rfl | rfl) <;> decide +kernel
  have hnumbered : ∀ f ∈ ({bytes "msm", bytes "v3bw"} : Set Bytes), ∀ n,
      (∀ x ∈ numbered f n, isSlash x = false) ∧ numbered f n ≠ [] := by
    intro f hf n
    obtain ⟨hf, hne, -⟩ := hclean f hf
    exact ⟨List.forall_mem_append.mpr ⟨hf, suffix_clean n⟩, List.append_ne_nil_of_left_ne_nil hne _⟩
  refine ⟨?_, fun f hf p hp => ?_, fun f hf n _ d b _ q => ?_, fun f hf g hg hfg n _ p hp hp' => ?_⟩
  · rintro f (rfl | rfl) <;> decide +kernel
  · obtain ⟨hslash, hne, hfree⟩ := hclean f hf
    refine ⟨(), f, named_exampleDisk hslash hne hp, fun e he => ?_⟩
    rw [hfree] at he
    cases he
  · simp only [exampleDisk]
    split <;> simp
  · obtain ⟨hslash, hne, -⟩ := hclean g hg
    obtain rfl := named_exampleDisk (hnumbered f hf n).1 (hnumbered f hf n).2 hp
    obtain ⟨-, heq⟩ := Place.name.inj (named_exampleDisk hslash hne hp')
    -- the names already differ in front
    have hhead : (numbered f n).head? = f.head? := List.head?_append_of_ne_nil _ (hclean f hf).2.1
    rw [heq] at hhead
    rcases hf with rfl | rfl <;> rcases hg with rfl | rfl
    · exact hfg rfl
    · exact absurd hhead (by decide +kernel)
    · exact absurd hhead (by decide +kernel)
    · exact hfg rfl

theorem rounds_rotate_exampleDisk : ∃ w w' : World Unit,
    [⟨bytes "msm", [bytes "a"]⟩, ⟨bytes "v3bw", [bytes "b"]⟩].foldlM runRound
      ⟨exampleDisk, []⟩ = .ok w ∧
    runRound w ⟨bytes "msm", [bytes "c"]⟩ = .ok w' ∧
    w.disk.Keeps w'.disk ∧
    ∃ i, (∀ j, ResolvesTo w'.disk (bytes "msm") j ↔ j = i) ∧ w'.disk.content i = bytes "c" := by
  let rs : List OutputRound := [⟨bytes "msm", [bytes "a"]⟩, ⟨bytes "v3bw", [bytes "b"]⟩]
  let r : OutputRound := ⟨bytes "msm", [bytes "c"]⟩
  have hruns : (rs.foldlM runRound (⟨exampleDisk, []⟩ : World Unit)).toOption.map (fun w =>
      (w.access (numbered (bytes "msm") 2), (runRound w r).toOption.map World.failures)) =
      some (false, some (List.replicate 2 (.unlink .absent))) := by decide +kernel
  obtain ⟨w, hw, hpair⟩ := Option.map_eq_some_iff.mp hruns
  obtain ⟨hfree, hround⟩ := Prod.mk.inj hpair
  obtain ⟨w', hw', hfail⟩ := Option.map_eq_some_iff.mp hround
  have hok : w'.Succeeds := by
    intro e he
    rw [hfail] at he
    exact List.eq_of_mem_replicate he
  have hrun := eq_ok_of_toOption hw
  have hlast := eq_ok_of_toOption hw'
  have hrs : ∀ r ∈ rs, r.fname ∈ ({bytes "msm", bytes "v3bw"} : Set Bytes) := by simp [rs]
  have hr : r.fname ∈ ({bytes "msm", bytes "v3bw"} : Set Bytes) := by simp [r]
  obtain ⟨hkeeps, hnew⟩ := rounds_rotate rotatable_exampleDisk hrs hrun hr
  obtain ⟨n, rfd, w₁, -, -, -, hfile⟩ := hnew ⟨2, by decide, hfree⟩
  obtain ⟨i, -, -, -, hlink, hcontent, -⟩ := hfile w' hlast hok
  exact ⟨w, w', hrun, hlast, hkeeps w' hlast hok, i, hlink, by simpa [r] using hcontent⟩

end Flashflow
