import Mathlib.Data.List.Basic
import Mathlib.Logic.Function.Basic

/-! A file system with directories and symbolic links: where a path leads, as a relation and as a
walk that gives up after a number of links, and what stays of it when entries come and go. -/
namespace FileSystem

/-- A path: the root or the current directory, and the names from there on. -/
structure Path (N : Type*) where
  absolute : Bool
  names : List N
  nonempty : absolute = true ∨ names ≠ []
  deriving DecidableEq

/-- What stands under a name. The parent of a directory and the directory itself are entries like
any other. -/
inductive Entry (D N : Type*)
  | dir (d : D)
  | file (i : ℕ)
  | link (q : Path N)
  deriving DecidableEq

/-- The names in each directory. -/
abbrev Tree (D N : Type*) := D → N → Option (Entry D N)

theorem Entry.none_ne_file {D N : Type*} (i : ℕ) :
    (none : Option (Entry D N)) ≠ some (.file i) := by
  simp

theorem Entry.link_ne_file {D N : Type*} (q : Path N) (i : ℕ) :
    (some (.link q) : Option (Entry D N)) ≠ some (.file i) := by
  simp

/-- Where a path ends: at a directory, or at a name in one that may be free. -/
inductive Place (D N : Type*)
  | dir (d : D)
  | name (d : D) (n : N)
  deriving DecidableEq

variable {D N B : Type*}

/-- The directory in which the first name of a path stands. -/
def Path.start (q : Path N) (root d : D) : D := if q.absolute then root else d

/-! Where a path leads. -/

/-- The name is not followed any further: it is free, a file, or a link that is not followed. -/
def Stops (E : Tree D N) (follow : Bool) (d : D) (n : N) : Prop :=
  ∀ e, E d n = some e → (∃ i, e = .file i) ∨ follow = false ∧ ∃ q, e = .link q

/-- The names lead from a directory to a place; a link in the last place is followed only if
`follow` says so. -/
inductive Leads (E : Tree D N) (root : D) (follow : Bool) : D → List N → Place D N → Prop
  | here (d : D) : Leads E root follow d [] (.dir d)
  | down {d x : D} {n : N} {rest : List N} {p : Place D N} (he : E d n = some (.dir x))
      (h : Leads E root follow x rest p) : Leads E root follow d (n :: rest) p
  | along {d : D} {n : N} {q : Path N} {rest : List N} {p : Place D N}
      (he : E d n = some (.link q)) (hf : follow = true ∨ rest ≠ [])
      (h : Leads E root follow (q.start root d) (q.names ++ rest) p) :
      Leads E root follow d (n :: rest) p
  | name {d : D} {n : N} (he : Stops E follow d n) : Leads E root follow d [n] (.name d n)

section Leads
variable {E E' : Tree D N} {root d x : D} {follow : Bool} {n : N} {rest xs ys : List N}
  {p p' : Place D N} {q : Path N} {i : ℕ}

theorem stops_of_none (h : E d n = none) : Stops E follow d n := by
  intro e he
  rw [h] at he
  cases he

theorem stops_of_file (h : E d n = some (.file i)) : Stops E follow d n := by
  intro e he
  rw [h] at he
  exact .inl ⟨i, (Option.some.inj he).symm⟩

theorem stops_of_link (h : E d n = some (.link q)) : Stops E false d n := by
  intro e he
  rw [h] at he
  exact .inr ⟨rfl, q, (Option.some.inj he).symm⟩

theorem leads_nil_iff : Leads E root follow d [] p ↔ p = .dir d := by
  constructor
  · intro h
    cases h
    rfl
  · rintro rfl
    exact .here d

theorem leads_iff_of_dir (he : E d n = some (.dir x)) :
    Leads E root follow d (n :: rest) p ↔ Leads E root follow x rest p := by
  constructor
  · intro h
    cases h with
    | down he' h =>
      rw [he] at he'
      cases he'
      exact h
    | along he' _ _ => simp [he] at he'
    | name he' => simpa using he' _ he
  · exact .down he

theorem leads_iff_of_link (he : E d n = some (.link q)) (hf : follow = true ∨ rest ≠ []) :
    Leads E root follow d (n :: rest) p ↔
      Leads E root follow (q.start root d) (q.names ++ rest) p := by
  constructor
  · intro h
    cases h with
    | down he' _ => simp [he] at he'
    | along he' _ h =>
      rw [he] at he'
      cases he'
      exact h
    | name he' =>
      have hstop := he' _ he
      simp_all
  · exact .along he hf

theorem leads_iff_of_stops (he : Stops E follow d n)
    (hf : ∀ q, E d n = some (.link q) → rest = []) :
    Leads E root follow d (n :: rest) p ↔ rest = [] ∧ p = .name d n := by
  constructor
  · intro h
    cases h with
    | down he' _ => simpa using he _ he'
    | along he' hor _ =>
      have hrest := hf _ he'
      have hstop := he _ he'
      simp_all
    | name _ => exact ⟨rfl, rfl⟩
  · rintro ⟨rfl, rfl⟩
    exact .name he

/-- A path leads to one place. -/
theorem Leads.unique (h : Leads E root follow d xs p) (h' : Leads E root follow d xs p') :
    p = p' := by
  induction h with
  | here d => exact (leads_nil_iff.mp h').symm
  | down he _ ih => exact ih ((leads_iff_of_dir he).mp h')
  | along he hf _ ih => exact ih ((leads_iff_of_link he hf).mp h')
  | name he => exact ((leads_iff_of_stops he fun _ _ => rfl).mp h').2.symm

/-- The last name is the place itself if it is no link that is followed. -/
theorem Leads.last {x : D} {m : N} (h : Leads E root follow d [n] (.name x m))
    (hno : follow = true → ∀ q, E d n ≠ some (.link q)) : x = d ∧ m = n := by
  cases h with
  | down he h => cases h
  | along he hf h =>
    have hfollow : follow = true := by simpa using hf
    exact absurd he (hno hfollow _)
  | name he => exact ⟨rfl, rfl⟩

/-- Behind a directory the path goes on. -/
theorem Leads.append (h : Leads E root true d xs (.dir x)) (hys : ys ≠ [])
    (h' : Leads E root follow x ys p) : Leads E root follow d (xs ++ ys) p := by
  generalize hp : Place.dir x = r at h
  induction h with
  | here d =>
    cases hp
    exact h'
  | down he _ ih => exact .down he (ih hp)
  | along he _ _ ih =>
    have hgo := ih hp
    rw [List.append_assoc] at hgo
    exact .along he (.inr (List.append_ne_nil_of_right_ne_nil _ hys)) hgo
  | name he => cases hp

/-- All names in front of the last ones lead to a directory. -/
theorem Leads.split (h : Leads E root follow d (xs ++ ys) p) (hys : ys ≠ []) :
    ∃ x, Leads E root true d xs (.dir x) ∧ Leads E root follow x ys p := by
  generalize hl : xs ++ ys = l at h
  induction h generalizing xs with
  | here d => exact absurd (List.append_eq_nil_iff.mp hl).2 hys
  | @down d x n rest p he h ih =>
    rcases List.append_eq_cons_iff.mp hl with ⟨rfl, rfl⟩ | ⟨xs, rfl, rfl⟩
    · exact ⟨d, .here d, .down he h⟩
    · obtain ⟨y, hd, hy⟩ := ih rfl
      exact ⟨y, .down he hd, hy⟩
  | @along d n q rest p he hf h ih =>
    rcases List.append_eq_cons_iff.mp hl with ⟨rfl, rfl⟩ | ⟨xs, rfl, rfl⟩
    · exact ⟨d, .here d, .along he hf h⟩
    · obtain ⟨y, hd, hy⟩ := @ih (q.names ++ xs) (List.append_assoc ..)
      exact ⟨y, .along he (.inl rfl) hd, hy⟩
  | @name d n he =>
    rcases List.append_eq_cons_iff.mp hl with ⟨rfl, rfl⟩ | ⟨xs, rfl, hnil⟩
    · exact ⟨d, .here d, .name he⟩
    · exact absurd (List.append_eq_nil_iff.mp hnil.symm).2 hys

theorem leads_append_iff (hys : ys ≠ []) : Leads E root follow d (xs ++ ys) p ↔
    ∃ x, Leads E root true d xs (.dir x) ∧ Leads E root follow x ys p :=
  ⟨fun h => h.split hys, fun ⟨_, hd, h⟩ => hd.append hys h⟩

/-- The way to a directory stays when entries are added. -/
theorem Leads.mono (h : Leads E root follow d xs (.dir x))
    (hle : ∀ d n e, E d n = some e → E' d n = some e) : Leads E' root follow d xs (.dir x) := by
  generalize hp : Place.dir x = r at h ⊢
  induction h with
  | here d => exact .here d
  | down he _ ih => exact .down (hle _ _ _ he) (ih hp)
  | along he hf _ ih => exact .along (hle _ _ _ he) hf (ih hp)
  | name he => cases hp

/-- A way to a directory was there before if each new entry is one through which no way leads to a
directory. -/
theorem Leads.restrict (h : Leads E' root follow d xs (.dir x))
    (hnew : ∀ d n e, E' d n = some e →
      E d n = some e ∨ ∀ rest x, ¬ Leads E' root follow d (n :: rest) (.dir x)) :
    Leads E root follow d xs (.dir x) := by
  generalize hp : Place.dir x = r at h ⊢
  induction h with
  | here d => exact .here d
  | @down d y n rest p he h ih =>
    subst hp
    rcases hnew d n _ he with he' | hno
    · exact .down he' (ih rfl)
    · exact absurd (.down he h) (hno rest x)
  | @along d n q rest p he hf h ih =>
    subst hp
    rcases hnew d n _ he with he' | hno
    · exact .along he' hf (ih rfl)
    · exact absurd (.along he hf h) (hno rest x)
  | name he => cases hp

/-- No way to a directory leads through a file. -/
theorem not_leads_of_file (he : E d n = some (.file i)) :
    ¬ Leads E root follow d (n :: rest) (.dir x) := by
  intro h
  obtain ⟨-, hp⟩ := (leads_iff_of_stops (stops_of_file he) (by simp [he])).mp h
  cases hp

end Leads

/-! The walk along a path. -/

/-- The walk up to the first link that is followed, where `again` takes over. -/
def walkWith (E : Tree D N) (root : D) (follow : Bool)
    (again : D → List N → Option (Place D N)) : D → List N → Option (Place D N)
  | d, [] => some (.dir d)
  | d, n :: rest =>
    match E d n with
    | some (.dir x) => walkWith E root follow again x rest
    | some (.link q) =>
      if follow || !rest.isEmpty then again (q.start root d) (q.names ++ rest)
      else some (.name d n)
    | some (.file _) | none => if rest.isEmpty then some (.name d n) else none

/-- The walk that gives up at the link after the first `links` many. -/
def walk (E : Tree D N) (root : D) (follow : Bool) : ℕ → D → List N → Option (Place D N)
  | 0 => walkWith E root follow fun _ _ => none
  | links + 1 => walkWith E root follow (walk E root follow links)

section Walk
variable {E : Tree D N} {root d x : D} {follow : Bool} {n : N} {xs : List N} {p : Place D N}
  {again : D → List N → Option (Place D N)}

theorem leads_of_walkWith (hagain : ∀ d xs, again d xs = some p → Leads E root follow d xs p)
    (h : walkWith E root follow again d xs = some p) : Leads E root follow d xs p := by
  induction xs generalizing d with
  | nil => exact leads_nil_iff.mpr (Option.some.inj h).symm
  | cons n rest ih =>
    unfold walkWith at h
    split at h
    next x he => exact .down he (ih h)
    next q he =>
      split at h
      next hf => exact .along he (by simpa using hf) (hagain _ _ h)
      next hf =>
        obtain ⟨rfl, rfl⟩ : follow = false ∧ rest = [] := by simpa using hf
        cases h
        exact .name (stops_of_link he)
    next i he =>
      obtain ⟨rfl, rfl⟩ : rest = [] ∧ Place.name d n = p := by simpa using h
      exact .name (stops_of_file he)
    next he =>
      obtain ⟨rfl, rfl⟩ : rest = [] ∧ Place.name d n = p := by simpa using h
      exact .name (stops_of_none he)

/-- The walk ends only where the path leads. -/
theorem leads_of_walk {links : ℕ} (h : walk E root follow links d xs = some p) :
    Leads E root follow d xs p := by
  induction links generalizing d xs with
  | zero => exact leads_of_walkWith (by simp) h
  | succ links ih => exact leads_of_walkWith (fun _ _ => ih) h

theorem walk_cons_of_dir {links : ℕ} {rest : List N} (he : E d n = some (.dir x)) :
    walk E root follow links d (n :: rest) = walk E root follow links x rest := by
  cases links <;> simp [walk, walkWith, he]

/-- The walk gets to where the path leads if it may follow enough links. -/
theorem exists_walk (h : Leads E root follow d xs p) :
    ∃ links, walk E root follow links d xs = some p := by
  induction h with
  | here d => exact ⟨0, rfl⟩
  | down he _ ih =>
    obtain ⟨links, hw⟩ := ih
    exact ⟨links, (walk_cons_of_dir he).trans hw⟩
  | along he hf _ ih =>
    obtain ⟨links, hw⟩ := ih
    refine ⟨links + 1, ?_⟩
    simp only [walk, walkWith, he]
    rw [if_pos (by simpa using hf), hw]
  | @name d n he =>
    refine ⟨0, ?_⟩
    cases hE : E d n with
    | none => simp [walk, walkWith, hE]
    | some e =>
      rcases he e hE with ⟨i, rfl⟩ | ⟨rfl, q, rfl⟩
      · simp [walk, walkWith, hE]
      · simp [walk, walkWith, hE]

theorem exists_walk_iff : (∃ links, walk E root follow links d xs = some p) ↔
    Leads E root follow d xs p :=
  ⟨fun ⟨_, h⟩ => leads_of_walk h, exists_walk⟩

end Walk

/-! The file system with the contents of its files, and what a process does to it. -/

/-- The files are numbered in the order in which they were made. -/
structure Disk (D N B : Type*) where
  root : D
  cwd : D
  entries : Tree D N
  content : ℕ → List B
  files : ℕ
  made : ∀ {d n i}, entries d n = some (.file i) → i < files
  maxLinks : ℕ

/-- The entry under one name is set. -/
def Tree.set [DecidableEq D] [DecidableEq N] (E : Tree D N) (d : D) (n : N)
    (e : Option (Entry D N)) : Tree D N := fun d' n' => if d' = d ∧ n' = n then e else E d' n'

section Set
variable [DecidableEq D] [DecidableEq N] {E : Tree D N} {d d' : D} {n n' : N}
  {e : Option (Entry D N)}

@[simp] theorem Tree.set_self : E.set d n e d n = e := by simp [Tree.set]

theorem Tree.set_of_ne (h : ¬ (d' = d ∧ n' = n)) : E.set d n e d' n' = E d' n' := by
  simp [Tree.set, h]

/-- Only the one entry is new. -/
theorem Tree.set_eq_some {e' : Entry D N} (h : E.set d n e d' n' = some e') :
    d' = d ∧ n' = n ∧ e = some e' ∨ ¬ (d' = d ∧ n' = n) ∧ E d' n' = some e' := by
  unfold Tree.set at h
  split at h
  next heq => exact .inl ⟨heq.1, heq.2, h⟩
  next hne => exact .inr ⟨hne, h⟩

theorem Tree.set_set {e' : Option (Entry D N)} : (E.set d n e).set d n e' = E.set d n e' := by
  funext d' n'
  unfold Tree.set
  split <;> rfl

/-- What goes away was there before. -/
theorem Tree.of_set_none {e' : Entry D N} (h : E.set d n none d' n' = some e') :
    E d' n' = some e' := by
  rcases Tree.set_eq_some h with ⟨-, -, he⟩ | ⟨-, he⟩
  · cases he
  · exact he

theorem Tree.set_of_eq (h : E d n = e) : E.set d n e = E := by
  funext d' n'
  unfold Tree.set
  split
  next heq => rw [heq.1, heq.2, h]
  next => rfl

/-- A free name is taken, and all others stay. -/
theorem Tree.le_set (hfree : E d n = none) {e' : Entry D N} (h : E d' n' = some e') :
    E.set d n e d' n' = some e' := by
  rw [Tree.set_of_ne, h]
  rintro ⟨rfl, rfl⟩
  rw [hfree] at h
  cases h

end Set

namespace Disk

/-- Where a path leads, however many links it takes. -/
def Finds (disk : Disk D N B) (follow : Bool) (q : Path N) (p : Place D N) : Prop :=
  Leads disk.entries disk.root follow (q.start disk.root disk.cwd) q.names p

/-- The path leads to a file. -/
def Resolves (disk : Disk D N B) (q : Path N) (i : ℕ) : Prop :=
  ∃ d n, disk.Finds true q (.name d n) ∧ disk.entries d n = some (.file i)

/-- The lookup of the system, which follows `maxLinks` many links. -/
def find (disk : Disk D N B) (follow : Bool) (q : Path N) : Option (Place D N) :=
  walk disk.entries disk.root follow disk.maxLinks (q.start disk.root disk.cwd) q.names

/-- `access` for existence -/
def access (disk : Disk D N B) (q : Path N) : Bool :=
  match disk.find true q with
  | some (.dir _) => true
  | some (.name d n) => (disk.entries d n).isSome
  | none => false

/-- The file that is opened for reading. -/
def openRead (disk : Disk D N B) (q : Path N) : Option ℕ :=
  match disk.find true q with
  | some (.name d n) =>
    match disk.entries d n with
    | some (.file i) => some i
    | _ => none
  | _ => none

section Change
variable [DecidableEq D] [DecidableEq N]

/-- An empty file of its own under a name. -/
def create (disk : Disk D N B) (d : D) (n : N) : Disk D N B where
  root := disk.root
  cwd := disk.cwd
  entries := disk.entries.set d n (some (.file disk.files))
  content := Function.update disk.content disk.files []
  files := disk.files + 1
  made := by
    intro d' n' i h
    rcases Tree.set_eq_some h with ⟨-, -, he⟩ | ⟨-, he⟩
    · cases he
      exact Nat.lt_succ_self _
    · exact Nat.lt_succ_of_lt (disk.made he)
  maxLinks := disk.maxLinks

/-- The entry under a name goes away, or becomes another one that is no file. -/
def relink (disk : Disk D N B) (d : D) (n : N) (e : Option (Entry D N))
    (he : ∀ i, e ≠ some (.file i)) : Disk D N B :=
  { disk with
    entries := disk.entries.set d n e
    made := by
      intro d' n' i h
      rcases Tree.set_eq_some h with ⟨-, -, hi⟩ | ⟨-, hi⟩
      · exact absurd hi (he i)
      · exact disk.made hi }

/-- The file is opened for writing, which empties it or makes it. -/
def openWrite (disk : Disk D N B) (q : Path N) : Option (ℕ × Disk D N B) :=
  match disk.find true q with
  | some (.name d n) =>
    match disk.entries d n with
    | none => some (disk.files, disk.create d n)
    | some (.file i) => some (i, { disk with content := Function.update disk.content i [] })
    | _ => none
  | _ => none

/-- What is written to an open file. -/
def append (disk : Disk D N B) (i : ℕ) (bs : List B) : Disk D N B :=
  { disk with content := Function.update disk.content i (disk.content i ++ bs) }

/-- Why `unlink` fails. -/
inductive UnlinkError
  | absent
  | refused
  deriving DecidableEq

/-- A name goes away; `unlink` does not take directories. -/
def unlink (disk : Disk D N B) (q : Path N) : Except UnlinkError (Disk D N B) :=
  match disk.find false q with
  | some (.name d n) =>
    match disk.entries d n with
    | none => .error .absent
    | some _ => .ok (disk.relink d n none Entry.none_ne_file)
  | _ => .error .refused

/-- A link under a free name; what it points to need not be there. -/
def symlink (disk : Disk D N B) (target q : Path N) : Option (Disk D N B) :=
  match disk.find false q with
  | some (.name d n) =>
    match disk.entries d n with
    | none => some (disk.relink d n (some (.link target)) (Entry.link_ne_file _))
    | some _ => none
  | _ => none

end Change

/-! What the operations do. -/

section Spec
variable {disk disk' disk'' : Disk D N B} {q target : Path N} {p p' : Place D N} {follow : Bool}
  {d : D} {n : N} {i : ℕ} {bs bs' : List B}

theorem finds_of_find (h : disk.find follow q = some p) : disk.Finds follow q p := leads_of_walk h

theorem Finds.unique (h : disk.Finds follow q p) (h' : disk.Finds follow q p') : p = p' :=
  Leads.unique h h'

/-- A path leads to one file. -/
theorem Resolves.unique {j : ℕ} (h : disk.Resolves q i) (h' : disk.Resolves q j) : i = j := by
  obtain ⟨d, n, hp, he⟩ := h
  obtain ⟨d', n', hp', he'⟩ := h'
  obtain ⟨rfl, rfl⟩ := Place.name.inj (hp.unique hp')
  rw [he] at he'
  exact Entry.file.inj (Option.some.inj he')

theorem openRead_eq_some_iff : disk.openRead q = some i ↔
    ∃ d n, disk.find true q = some (.name d n) ∧ disk.entries d n = some (.file i) := by
  unfold openRead
  constructor
  · intro h
    split at h
    next d n hp =>
      split at h
      next he =>
        cases h
        exact ⟨d, n, hp, he⟩
      next => cases h
    next => cases h
  · rintro ⟨d, n, hp, he⟩
    simp only [hp, he]

/-- A path leads to the file that a system opens which follows enough links. -/
theorem resolves_iff : disk.Resolves q i ↔
    ∃ links, { disk with maxLinks := links }.openRead q = some i := by
  simp only [openRead_eq_some_iff]
  constructor
  · rintro ⟨d, n, hp, he⟩
    obtain ⟨links, hw⟩ := exists_walk_iff.mpr hp
    exact ⟨links, d, n, hw, he⟩
  · rintro ⟨links, d, n, hw, he⟩
    exact ⟨d, n, exists_walk_iff.mp ⟨links, hw⟩, he⟩

/-- Every file stays where it is and keeps its content. -/
structure Keeps (disk disk' : Disk D N B) : Prop where
  files : disk.files ≤ disk'.files
  entries : ∀ {d n i}, disk.entries d n = some (.file i) → disk'.entries d n = some (.file i)
  content : ∀ i < disk.files, disk'.content i = disk.content i

theorem Keeps.refl (disk : Disk D N B) : disk.Keeps disk := ⟨Nat.le_refl _, id, fun _ _ => rfl⟩

theorem Keeps.trans (h : disk.Keeps disk') (h' : disk'.Keeps disk'') : disk.Keeps disk'' where
  files := Nat.le_trans h.files h'.files
  entries he := h'.entries (h.entries he)
  content i hi := (h'.content i (Nat.lt_of_lt_of_le hi h.files)).trans (h.content i hi)

theorem append_append (disk : Disk D N B) (i : ℕ) (bs bs' : List B) :
    (disk.append i bs).append i bs' = disk.append i (bs ++ bs') := by
  simp [append, List.append_assoc]

theorem append_nil (disk : Disk D N B) (i : ℕ) : disk.append i [] = disk := by
  simp [append]

/-- Writing to a file that `disk` does not have. -/
theorem Keeps.append (h : disk.Keeps disk') (hi : disk.files ≤ i) :
    disk.Keeps (disk'.append i bs) where
  files := h.files
  entries := h.entries
  content j hj := by
    have hne : j ≠ i := by omega
    rw [← h.content j hj]
    exact Function.update_of_ne hne ..

variable [DecidableEq D] [DecidableEq N]

theorem keeps_create (hfree : disk.entries d n = none) : disk.Keeps (disk.create d n) where
  files := Nat.le_succ _
  entries := Tree.le_set hfree
  content _ hj := Function.update_of_ne (Nat.ne_of_lt hj) ..

theorem keeps_relink {e : Option (Entry D N)} {he : ∀ i, e ≠ some (.file i)}
    (hno : ∀ i, disk.entries d n ≠ some (.file i)) : disk.Keeps (disk.relink d n e he) where
  files := Nat.le_refl _
  entries := by
    intro d' n' i hi
    have hne : ¬ (d' = d ∧ n' = n) := by
      rintro ⟨rfl, rfl⟩
      exact hno i hi
    exact (Tree.set_of_ne hne).trans hi
  content _ _ := rfl

theorem relink_of_eq {e : Option (Entry D N)} {he : ∀ i, e ≠ some (.file i)}
    (h : disk.entries d n = e) : disk.relink d n e he = disk := by
  simp [relink, Tree.set_of_eq h]

/-- What is opened for writing though it was not there is a new file. -/
theorem openWrite_fresh (h : disk.access q = false) (ho : disk.openWrite q = some (i, disk')) :
    ∃ d n, disk.Finds true q (.name d n) ∧ disk.entries d n = none ∧ i = disk.files ∧
      disk' = disk.create d n := by
  unfold openWrite at ho
  split at ho
  next d n hp =>
    have hfree : disk.entries d n = none := by simpa [access, hp] using h
    rw [hfree] at ho
    cases ho
    exact ⟨d, n, finds_of_find hp, hfree, rfl, rfl⟩
  next => cases ho

theorem unlink_ok (h : disk.unlink q = .ok disk') : ∃ d n, disk.Finds false q (.name d n) ∧
    disk' = disk.relink d n none Entry.none_ne_file := by
  unfold unlink at h
  split at h
  next d n hp =>
    split at h
    next => cases h
    next =>
      cases h
      exact ⟨d, n, finds_of_find hp, rfl⟩
  next => cases h

theorem unlink_absent (h : disk.unlink q = .error .absent) :
    ∃ d n, disk.Finds false q (.name d n) ∧ disk.entries d n = none := by
  unfold unlink at h
  split at h
  next d n hp =>
    split at h
    next hfree => exact ⟨d, n, finds_of_find hp, hfree⟩
    next => cases h
  next => cases h

theorem symlink_some (h : disk.symlink target q = some disk') :
    ∃ d n, disk.Finds false q (.name d n) ∧ disk.entries d n = none ∧
      disk' = disk.relink d n (some (.link target)) (Entry.link_ne_file _) := by
  unfold symlink at h
  split at h
  next d n hp =>
    split at h
    next hfree =>
      cases h
      exact ⟨d, n, finds_of_find hp, hfree, rfl⟩
    next => cases h
  next => cases h

end Spec

end Disk

end FileSystem
