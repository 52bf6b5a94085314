import Flashflow.Rotatefd.Opens
import Flashflow.V3bw.Lines

/-! Rounds of output: what one round does to the file system, and that the names stay fit for the
next one. -/
namespace Flashflow
open Outcome Tokens FileSystem

/-! Names and the paths they stand for. -/

theorem suffix_clean (n : ℕ) : ∀ x ∈ suffix n, isSlash x = false := by
  intro x hx
  rcases List.mem_append.mp hx with hx | hx
  · have hall : ∀ x ∈ bytes ".", isSlash x = false := by decide +kernel
    exact hall x hx
  · have hlow := (isDigitByte_iff.mp (isDigitByte_decimal hx)).1
    rw [beq_eq_false_iff_ne]
    rintro rfl
    simp at hlow

theorem suffix_ne_nil (n : ℕ) : suffix n ≠ [] := by
  have hdot : bytes "." ≠ [] := by decide +kernel
  exact List.append_ne_nil_of_left_ne_nil hdot _

/-- A name that does not end in a slash. -/
def Proper (f : Bytes) : Prop := ∃ a, f.getLast? = some a ∧ isSlash a = false

/-- The directories through which a name goes. -/
def parents (f : Bytes) : List Bytes := (tokens isSlash f).dropLast

section Names
variable {D : Type} {disk : Disk D Bytes UInt8} {f s : Bytes} {follow : Bool}
  {p : Place D Bytes} {d d' : D} {i : ℕ}

theorem Proper.ne_nil (hf : Proper f) : f ≠ [] := by
  rintro rfl
  obtain ⟨a, ha, -⟩ := hf
  cases ha

theorem Proper.append (hf : Proper f) (hs : ∀ x ∈ s, isSlash x = false) : Proper (f ++ s) := by
  cases hlast : s.getLast? with
  | none =>
    rw [List.getLast?_eq_none_iff.mp hlast, List.append_nil]
    exact hf
  | some a =>
    refine ⟨a, ?_, hs a (List.mem_of_getLast? hlast)⟩
    rw [List.getLast?_append, hlast, Option.some_or]

theorem Proper.numbered (hf : Proper f) (n : ℕ) : Proper (numbered f n) :=
  hf.append (suffix_clean n)

theorem Proper.basename (hf : Proper f) :
    (tokens isSlash f).getLast? = some (myBasename f) ∧ myBasename f ∈ tokens isSlash f := by
  obtain ⟨a, ha, hslash⟩ := hf
  cases hlast : (tokens isSlash f).getLast? with
  | none =>
    have hall := tokens_eq_nil_iff.mp (List.getLast?_eq_none_iff.mp hlast)
    simp [hall a (List.mem_of_getLast? ha)] at hslash
  | some b =>
    have hb : myBasename f = b := by simp [myBasename, hlast]
    rw [hb]
    exact ⟨rfl, List.mem_of_getLast? hlast⟩

/-- What is appended goes to the last name. -/
theorem Proper.tokens_append (hf : Proper f) (hs : ∀ x ∈ s, isSlash x = false) :
    tokens isSlash (f ++ s) = parents f ++ [myBasename f ++ s] := by
  have hb := hf.basename.1
  obtain ⟨a, ha, hslash⟩ := hf
  rw [tokens_append_clean ha hslash hs, hb]
  rfl

theorem Proper.basename_append (hf : Proper f) (hs : ∀ x ∈ s, isSlash x = false) :
    myBasename (f ++ s) = myBasename f ++ s := by
  have hb := (hf.append hs).basename.1
  rw [hf.tokens_append hs, List.getLast?_concat] at hb
  exact (Option.some.inj hb).symm

theorem Proper.path_eq (hf : Proper f) : ∃ q, path f = some q ∧
    q.absolute = f.head?.any isSlash ∧ q.names = tokens isSlash f := by
  obtain ⟨a, ha, hslash⟩ := id hf
  refine ⟨_, dif_neg hf.ne_nil, rfl, ?_⟩
  simp [ha, hslash]

/-- The basename is a path of one name. -/
theorem Proper.path_basename (hf : Proper f) : ∃ q, path (myBasename f) = some q ∧
    q.absolute = false ∧ q.names = [myBasename f] := by
  obtain ⟨hne, hclean, -⟩ := mem_tokens hf.basename.2
  have hb : Proper (myBasename f) :=
    ⟨_, List.getLast?_eq_some_getLast hne, hclean _ (List.getLast_mem hne)⟩
  obtain ⟨q, hq, habs, hnames⟩ := hb.path_eq
  refine ⟨q, hq, ?_, ?_⟩
  · rw [habs, List.head?_eq_some_head hne]
    exact hclean _ (List.head_mem hne)
  · rw [hnames, tokens_clean hclean hne]

/-- A name leads to a place. -/
def Named (disk : Disk D Bytes UInt8) (follow : Bool) (f : Bytes) (p : Place D Bytes) : Prop :=
  ∃ q, path f = some q ∧ disk.Finds follow q p

/-- A name leads to a file. -/
def ResolvesTo (disk : Disk D Bytes UInt8) (f : Bytes) (i : ℕ) : Prop :=
  ∃ q, path f = some q ∧ disk.Resolves q i

/-- The directory in which the last part of a name stands. -/
def InDir (disk : Disk D Bytes UInt8) (f : Bytes) (d : D) : Prop :=
  Leads disk.entries disk.root true (if f.head?.any isSlash then disk.root else disk.cwd)
    (parents f) (.dir d)

theorem InDir.unique (h : InDir disk f d) (h' : InDir disk f d') : d = d' :=
  Place.dir.inj (Leads.unique h h')

theorem resolvesTo_iff : ResolvesTo disk f i ↔
    ∃ d n, Named disk true f (.name d n) ∧ disk.entries d n = some (.file i) := by
  constructor
  · rintro ⟨q, hq, d, n, hp, he⟩
    exact ⟨d, n, ⟨q, hq, hp⟩, he⟩
  · rintro ⟨d, n, ⟨q, hq, hp⟩, he⟩
    exact ⟨q, hq, d, n, hp, he⟩

theorem ResolvesTo.unique {j : ℕ} (h : ResolvesTo disk f i) (h' : ResolvesTo disk f j) : i = j := by
  obtain ⟨q, hq, hi⟩ := h
  obtain ⟨q', hq', hj⟩ := h'
  obtain rfl := Option.some.inj (hq.symm.trans hq')
  exact hi.unique hj

/-- A name with something appended leads through the directory of the name. -/
theorem Proper.named_append_iff (hf : Proper f) (hs : ∀ x ∈ s, isSlash x = false) :
    Named disk follow (f ++ s) p ↔
      ∃ d, InDir disk f d ∧ Leads disk.entries disk.root follow d [myBasename f ++ s] p := by
  obtain ⟨q, hq, habs, hnames⟩ := (hf.append hs).path_eq
  rw [hf.tokens_append hs] at hnames
  rw [List.head?_append_of_ne_nil _ hf.ne_nil] at habs
  have hiff : Leads disk.entries disk.root follow (q.start disk.root disk.cwd)
      (parents f ++ [myBasename f ++ s]) p ↔ _ := leads_append_iff (List.cons_ne_nil _ [])
  rw [← hnames, Path.start, habs] at hiff
  refine Iff.trans ⟨?_, fun h => ⟨q, hq, ?_⟩⟩ hiff
  · rintro ⟨q', hq', h⟩
    obtain rfl := Option.some.inj (hq.symm.trans hq')
    rwa [Disk.Finds, Path.start, habs] at h
  · rwa [Disk.Finds, Path.start, habs]

theorem Proper.named_iff (hf : Proper f) : Named disk follow f p ↔
    ∃ d, InDir disk f d ∧ Leads disk.entries disk.root follow d [myBasename f] p := by
  simpa using hf.named_append_iff (s := []) (by simp)

end Names

/-! What the operations do to the file system if they do not fail. -/

section Worlds
variable {D : Type} [DecidableEq D] {w w' : World D} {f c : Bytes} {d : D} {n : Bytes} {i : ℕ}

/-- What is opened though `access` does not find it is a new file. -/
theorem openWrite_fresh (h : w.access f = false) (ho : w.openWrite f = some (i, w')) :
    ∃ d n, Named w.disk true f (.name d n) ∧ w.disk.entries d n = none ∧ i = w.disk.files ∧
      w' = { w with disk := w.disk.create d n } := by
  cases hq : path f with
  | none => simp [World.openWrite, hq] at ho
  | some q =>
    have hacc : w.disk.access q = false := by simpa [World.access, hq] using h
    cases hop : w.disk.openWrite q with
    | none => simp [World.openWrite, hq, hop] at ho
    | some fd =>
      obtain ⟨fd, disk⟩ := fd
      obtain ⟨rfl, rfl⟩ : fd = i ∧ { w with disk := disk } = w' := by
        simpa [World.openWrite, hq, hop] using ho
      obtain ⟨d, n, hp, hfree, rfl, rfl⟩ := Disk.openWrite_fresh hacc hop
      exact ⟨d, n, ⟨q, hq, hp⟩, hfree, rfl, rfl⟩

/-- A name is removed, or was not there. -/
theorem unlink_succeeds (h : (w.unlink f).Succeeds) : w.Succeeds ∧ (f = [] ∨
    ∃ d n, Named w.disk false f (.name d n) ∧
      (w.unlink f = { w with disk := w.disk.relink d n none Entry.none_ne_file } ∨
        w.disk.entries d n = none ∧ (w.unlink f).disk = w.disk)) := by
  unfold World.unlink at h ⊢
  split at h
  next hq =>
    refine ⟨fun e he => h e (List.mem_append_left _ he), .inl ?_⟩
    by_contra hne
    simp [path, hne] at hq
  next q hq =>
    split at h
    next disk hok =>
      obtain ⟨d, n, hp, rfl⟩ := Disk.unlink_ok hok
      exact ⟨h, .inr ⟨d, n, ⟨q, hq, hp⟩, .inl rfl⟩⟩
    next e herr =>
      have he : Failure.unlink e = .unlink .absent := h _ (List.mem_append_right _ (by simp))
      cases he
      obtain ⟨d, n, hp, hfree⟩ := Disk.unlink_absent herr
      exact ⟨fun e he => h e (List.mem_append_left _ he),
        .inr ⟨d, n, ⟨q, hq, hp⟩, .inr ⟨hfree, rfl⟩⟩⟩

theorem symlink_succeeds (h : (w.symlink c f).Succeeds) : ∃ t d n, path c = some t ∧
    Named w.disk false f (.name d n) ∧ w.disk.entries d n = none ∧
      w.symlink c f =
        { w with disk := w.disk.relink d n (some (.link t)) (Entry.link_ne_file _) } := by
  unfold World.symlink at h ⊢
  split at h
  next disk hsome =>
    obtain ⟨t, ht, hsome⟩ := Option.bind_eq_some_iff.mp hsome
    obtain ⟨q, hq, hsome⟩ := Option.bind_eq_some_iff.mp hsome
    obtain ⟨d, n, hp, hfree, rfl⟩ := Disk.symlink_some hsome
    exact ⟨t, d, n, ht, ⟨q, hq, hp⟩, hfree, rfl⟩
  next =>
    have hno : Failure.symlink = .unlink .absent := h _ (List.mem_append_right _ (by simp))
    cases hno

/-- The name is the first one with a number that is not there. -/
structure FirstFree (w : World D) (f : Bytes) (n : ℕ) : Prop where
  lt : n < 1000
  free : w.access (numbered f n) = false
  least : ∀ k < n, w.access (numbered f k) = true

theorem exists_firstFree (h : ∃ n < 1000, w.access (numbered f n) = false) :
    ∃ n, FirstFree w f n := by
  obtain ⟨n, hn, hfree, hleast⟩ := w.opens.exists_first h
  exact ⟨n, hn, hfree, hleast⟩

/-- The search stops at the first free name. -/
theorem rfdOpen_eq {n : ℕ} (h : FirstFree w f n) : rfdOpen w f =
    (some (rfdInit w f (numbered f n)).1, (rfdInit w f (numbered f n)).2) := by
  have hopen := w.opens.rfdOpen_eq h.lt h.free h.least
  rw [rfdOpen_opens, hopen, rfdInit]
  cases ho : w.openWrite (numbered f n) with
  | none => simp [World.opens, ho]
  | some r => simp [World.opens, ho]

theorem rfdOpen_eq_none (h : ¬ ∃ n < 1000, w.access (numbered f n) = false) :
    rfdOpen w f = (none, w) := by
  have hnone : w.opens.rfdOpen f = none := Opens.rfdOpen_eq_none h
  rw [rfdOpen_opens, hnone]

omit [DecidableEq D] in
theorem writes_eq {rfd : RotateFd} {texts : List Bytes} (hfd : rfd.fd = some i) (w : World D) :
    texts.foldlM rfd.write w = .ok { w with disk := w.disk.append i texts.flatten } := by
  induction texts generalizing w with
  | nil => simp [Disk.append_nil, pure, Except.pure]
  | cons text texts ih =>
    have hwrite : rfd.write w text = .ok { w with disk := w.disk.append i text } := by
      simp [RotateFd.write, hfd]
    rw [List.foldlM_cons, hwrite, List.flatten_cons, ← Disk.append_append]
    exact ih _

/-- A round that ends has opened a file, if there was a free name. -/
theorem runRound_eq {r : OutputRound} {n : ℕ} (hn : FirstFree w r.fname n)
    (h : runRound w r = .ok w') :
    ∃ i w₁, w.openWrite (numbered r.fname n) = some (i, w₁) ∧
      w' = (World.unlink { w₁ with disk := w₁.disk.append i r.texts.flatten } r.fname).symlink
        (myBasename (numbered r.fname n)) r.fname := by
  unfold runRound at h
  rw [rfdOpen_eq hn] at h
  obtain ⟨w₂, hwrites, hclose⟩ := bind_eq_ok.mp h
  cases hopen : w.openWrite (numbered r.fname n) with
  | none =>
    simp only [rfdInit, hopen, rfdClose] at hclose
    cases hclose
  | some fd =>
    obtain ⟨i, w₁⟩ := fd
    simp only [rfdInit, hopen, rfdClose] at hwrites hclose
    rw [writes_eq rfl] at hwrites
    cases hwrites
    cases hclose
    exact ⟨i, w₁, rfl, rfl⟩

end Worlds

/-! One round, and what holds for the next one. -/

/-- The names are fit for rounds of output. -/
structure Ready {D : Type} (disk : Disk D Bytes UInt8) (names : Set Bytes) : Prop where
  proper : ∀ f ∈ names, Proper f
  requested : ∀ f ∈ names, ∀ d, InDir disk f d →
    ∀ e, disk.entries d (myBasename f) = some e → ∃ q, e = .link q
  rotated : ∀ f ∈ names, ∀ n < 1000, ∀ d, InDir disk f d →
    ∀ q, disk.entries d (myBasename f ++ suffix n) ≠ some (.link q)
  apart : ∀ f ∈ names, ∀ g ∈ names, ∀ n < 1000, ∀ d, InDir disk f d → InDir disk g d →
    myBasename g ≠ myBasename f ++ suffix n

/-- What a round of `f` has done that took the number `n`. -/
structure Turned {D : Type} [DecidableEq D] (disk disk' : Disk D Bytes UInt8) (f : Bytes) (n : ℕ)
    (d : D) (text : Bytes) : Prop where
  inDir : InDir disk f d
  inDir' : InDir disk' f d
  free : disk.entries d (myBasename f ++ suffix n) = none
  root : disk'.root = disk.root
  cwd : disk'.cwd = disk.cwd
  entries : ∃ t : Path Bytes, t.absolute = false ∧ t.names = [myBasename f ++ suffix n] ∧
    disk'.entries = (disk.entries.set d (myBasename f ++ suffix n) (some (.file disk.files))).set d
      (myBasename f) (some (.link t))
  content : disk'.content disk.files = text
  keeps : disk.Keeps disk'

theorem ne_append_suffix (b : Bytes) (n : ℕ) : b ≠ b ++ suffix n := by
  intro h
  exact suffix_ne_nil n (List.self_eq_append_right.mp h)

section Step
variable {D : Type} {disk disk' : Disk D Bytes UInt8} {names : Set Bytes} {f g c text : Bytes}
  {d x : D} {n : ℕ}

theorem InDir.mono (h : InDir disk f d) (hroot : disk'.root = disk.root)
    (hcwd : disk'.cwd = disk.cwd)
    (hle : ∀ d n e, disk.entries d n = some e → disk'.entries d n = some e) : InDir disk' f d := by
  unfold InDir
  rw [hroot, hcwd]
  exact Leads.mono h hle

variable [DecidableEq D] {w w' : World D} {r : OutputRound}

/-- What `rfd_close` does to the file system. -/
theorem closed (hf : Proper f) (hdir : InDir w.disk f d)
    (hlink : ∀ e, w.disk.entries d (myBasename f) = some e → ∃ q, e = .link q)
    (hok : ((w.unlink f).symlink c f).Succeeds) : ∃ t, path c = some t ∧
      ((w.unlink f).symlink c f).disk = (w.disk.relink d (myBasename f) none
        Entry.none_ne_file).relink d (myBasename f) (some (.link t)) (Entry.link_ne_file t) ∧
      InDir ((w.unlink f).symlink c f).disk f d := by
  obtain ⟨t, d₂, m₂, ht, hnamed₂, hfree, heq⟩ := symlink_succeeds hok
  have hok₁ : (w.unlink f).Succeeds := by
    rw [heq] at hok
    exact hok
  obtain ⟨-, hnil | ⟨d₁, m₁, hnamed₁, hcase⟩⟩ := unlink_succeeds hok₁
  · exact absurd hnil hf.ne_nil
  -- the name that goes away is the one in the directory of `f`
  obtain ⟨y, hy, hlast⟩ := hf.named_iff.mp hnamed₁
  obtain rfl := hy.unique hdir
  obtain ⟨rfl, rfl⟩ := hlast.last (by simp)
  have hunlink : (w.unlink f).disk = w.disk.relink d₁ (myBasename f) none Entry.none_ne_file := by
    rcases hcase with hcase | ⟨hnone, hcase⟩
    · rw [hcase]
    · rw [hcase, Disk.relink_of_eq hnone]
  rw [hunlink] at hnamed₂
  rw [heq]
  -- without it the way to the directory of `f` is still the same
  obtain ⟨z, hz, hlast⟩ := hf.named_iff.mp hnamed₂
  have hz' : InDir w.disk f z := hz.mono rfl rfl fun _ _ _ => Tree.of_set_none
  obtain rfl := hz'.unique hdir
  obtain ⟨rfl, rfl⟩ := hlast.last (by simp)
  refine ⟨t, ht, by simp only [hunlink], hz.mono ?_ ?_ ?_⟩
  · simp only [hunlink]
    rfl
  · simp only [hunlink]
    rfl
  · intro d' n' e he
    simp only [hunlink]
    exact Tree.le_set Tree.set_self he

theorem turned_of_runRound (hready : Ready w.disk names) (hmem : r.fname ∈ names)
    (hn : FirstFree w r.fname n) (h : runRound w r = .ok w') (hok : w'.Succeeds) :
    ∃ d, Turned w.disk w'.disk r.fname n d r.texts.flatten := by
  have hf := hready.proper _ hmem
  obtain ⟨i, w₁, hopen, rfl⟩ := runRound_eq hn h
  obtain ⟨d₁, m₁, hnamed, hfree, rfl, rfl⟩ := openWrite_fresh hn.free hopen
  obtain ⟨d, hdir, hlast⟩ := (hf.named_append_iff (suffix_clean n)).mp hnamed
  obtain ⟨rfl, rfl⟩ := hlast.last fun _ => hready.rotated _ hmem n hn.lt d hdir
  have hlink := hready.requested _ hmem d₁ hdir
  -- the file system in front of `rfd_close`
  let disk₁ := (w.disk.create d₁ (myBasename r.fname ++ suffix n)).append w.disk.files
    r.texts.flatten
  have hother : disk₁.entries d₁ (myBasename r.fname) = w.disk.entries d₁ (myBasename r.fname) :=
    Tree.set_of_ne fun h => ne_append_suffix _ n h.2
  have hdir₁ : InDir disk₁ r.fname d₁ := hdir.mono rfl rfl fun _ _ _ => Tree.le_set hfree
  obtain ⟨t, ht, heq, hdir'⟩ := closed hf hdir₁ (by rwa [hother]) hok
  obtain ⟨q, hq, habs, hnames⟩ := (hf.numbered n).path_basename
  obtain rfl := Option.some.inj (ht.symm.trans hq)
  rw [numbered, hf.basename_append (suffix_clean n)] at hnames
  refine ⟨d₁, hdir, hdir', hfree, ?_, ?_, ⟨t, habs, hnames, ?_⟩, ?_, ?_⟩
  · rw [heq]
    rfl
  · rw [heq]
    rfl
  · rw [heq]
    exact Tree.set_set
  · rw [heq]
    simp [Disk.relink, Disk.append, Disk.create]
  · rw [heq]
    have hmade : w.disk.Keeps disk₁ := (Disk.keeps_create hfree).append (Nat.le_refl _)
    refine (hmade.trans (Disk.keeps_relink fun i hi => ?_)).trans
      (Disk.keeps_relink fun i hi => ?_)
    · rw [hother] at hi
      obtain ⟨q, hq⟩ := hlink _ hi
      cases hq
    · simp [Disk.relink] at hi

/-- The new file is where it was opened. -/
theorem Turned.file (h : Turned disk disk' f n d text) :
    disk'.entries d (myBasename f ++ suffix n) = some (.file disk.files) := by
  obtain ⟨t, -, -, hE⟩ := h.entries
  rw [hE, Tree.set_of_ne fun heq => ne_append_suffix _ n heq.2.symm, Tree.set_self]

/-- No way to a directory is new after a round: what it has made are a file and a link to it. -/
theorem Turned.inDir_of (h : Turned disk disk' f n d text) (hx : InDir disk' g x) :
    InDir disk g x := by
  obtain ⟨t, habs, hnames, hE⟩ := h.entries
  unfold InDir at hx ⊢
  rw [h.root, h.cwd] at hx
  apply hx.restrict
  intro d' m e he
  have hset := he
  rw [hE] at hset
  rcases Tree.set_eq_some hset with ⟨rfl, rfl, hlink⟩ | ⟨-, hset⟩
  · refine .inr fun rest y hlead => ?_
    rw [← hlink] at he
    rw [leads_iff_of_link he (.inl rfl), hnames, Path.start, habs] at hlead
    exact not_leads_of_file h.file hlead
  · rcases Tree.set_eq_some hset with ⟨rfl, rfl, -⟩ | ⟨-, hold⟩
    · exact .inr fun rest y => not_leads_of_file h.file
    · exact .inl hold

theorem Turned.resolvesTo_numbered (h : Turned disk disk' f n d text) (hf : Proper f) :
    ResolvesTo disk' (numbered f n) disk.files :=
  resolvesTo_iff.mpr ⟨d, _, (hf.named_append_iff (suffix_clean n)).mpr
    ⟨d, h.inDir', .name (stops_of_file h.file)⟩, h.file⟩

/-- The link leads back to the new file. -/
theorem Turned.resolvesTo (h : Turned disk disk' f n d text) (hf : Proper f) :
    ResolvesTo disk' f disk.files := by
  obtain ⟨t, habs, hnames, hE⟩ := h.entries
  have hlink : disk'.entries d (myBasename f) = some (.link t) := by rw [hE, Tree.set_self]
  refine resolvesTo_iff.mpr ⟨d, _, hf.named_iff.mpr ⟨d, h.inDir', ?_⟩, h.file⟩
  rw [leads_iff_of_link hlink (.inl rfl), hnames, Path.start, habs]
  exact .name (stops_of_file h.file)

/-- After a round of one of the names all of them are fit for the next one. -/
theorem Ready.turned (h : Ready disk names) (hf : f ∈ names) (hn : n < 1000)
    (ht : Turned disk disk' f n d text) : Ready disk' names := by
  obtain ⟨t, -, -, hE⟩ := ht.entries
  refine ⟨h.proper, fun g hg x hx e he => ?_, fun g hg k hk x hx q hq => ?_,
    fun g hg g' hg' k hk x hx hx' => ?_⟩
  · have hx₀ := ht.inDir_of hx
    rw [hE] at he
    rcases Tree.set_eq_some he with ⟨-, -, hlink⟩ | ⟨-, he⟩
    · exact ⟨t, (Option.some.inj hlink).symm⟩
    · rcases Tree.set_eq_some he with ⟨rfl, hb, -⟩ | ⟨-, he⟩
      · exact absurd hb (h.apart f hf g hg n hn x ht.inDir hx₀)
      · exact h.requested g hg x hx₀ e he
  · have hx₀ := ht.inDir_of hx
    rw [hE] at hq
    rcases Tree.set_eq_some hq with ⟨rfl, hb, -⟩ | ⟨-, hq⟩
    · exact h.apart g hg f hf k hk x hx₀ ht.inDir hb.symm
    · rcases Tree.set_eq_some hq with ⟨-, -, hfile⟩ | ⟨-, hq⟩
      · cases hfile
      · exact h.rotated g hg k hk x hx₀ q hq
  · exact h.apart g hg g' hg' k hk x (ht.inDir_of hx) (ht.inDir_of hx')

end Step

end Flashflow
