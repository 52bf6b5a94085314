import Flashflow.Rotatefd.Rotate

/-! `rfd_open` with any answers of `access` and `fopen`. -/
namespace Flashflow
open FileSystem

/-- What `rfd_open` appends to a name. -/
def suffix (n : ℕ) : Bytes := bytes "." ++ decimal n

/-- The name with a number. -/
def numbered (f : Bytes) (n : ℕ) : Bytes := f ++ suffix n

theorem length_decimal_le {n : ℕ} (h : n < 1000) : (decimal n).length ≤ 3 := by
  rw [decimal, List.length_map]
  exact (Nat.length_toDigits_le_iff (by decide) (by decide)).mpr h

/-- The buffer is long enough for all numbers that are tried. -/
theorem fnameBuf_eq {n : ℕ} (h : n < 1000) (f : Bytes) : fnameBuf f n = numbered f n := by
  have hdigits := length_decimal_le h
  have hdot : (bytes ".").length = 1 := by decide +kernel
  have hlen : (f ++ bytes "." ++ decimal n).length ≤ f.length + 5 - 1 := by
    simp only [List.length_append, hdot]
    omega
  rw [fnameBuf, snprintf, List.take_of_length_le hlen, List.append_assoc]
  rfl

/-- What `access` and `fopen` answer for the names that a call of `rfd_open` tries. The names are
all different, so whatever the calls answer is of this form. -/
structure Opens where
  access : Bytes → Bool
  fopen : Bytes → Option ℕ

/-- A handle whose stream is open. -/
def IsOpen (outRfd : Option RotateFd) : Prop := ∃ rfd fd, outRfd = some rfd ∧ rfd.fd = some fd

namespace Opens

/-- The loop of `rfd_open`. -/
def rfdTry (o : Opens) (fnameIn : Bytes) : ℕ → ℕ → Option RotateFd
  | 0, _ => none
  | tries + 1, next =>
    if o.access (fnameBuf fnameIn next) then rfdTry o fnameIn tries (next + 1)
    else some ⟨fnameIn, fnameBuf fnameIn next, o.fopen (fnameBuf fnameIn next)⟩

def rfdOpen (o : Opens) (fnameIn : Bytes) : Option RotateFd := o.rfdTry fnameIn 1000 0

/-- One of the names is free. -/
def HasFree (o : Opens) (f : Bytes) : Prop := ∃ n < 1000, o.access (numbered f n) = false

/-- `fopen` opens the first free name, if there is one. -/
def FirstOpens (o : Opens) (f : Bytes) : Prop :=
  ∀ n < 1000, o.access (numbered f n) = false → (∀ k < n, o.access (numbered f k) = true) →
    (o.fopen (numbered f n)).isSome

variable {o : Opens} {f : Bytes} {tries next n : ℕ}

theorem exists_first (h : o.HasFree f) : ∃ n < 1000, o.access (numbered f n) = false ∧
    ∀ k < n, o.access (numbered f k) = true := by
  classical
  obtain ⟨hlt, hfree⟩ := Nat.find_spec h
  refine ⟨Nat.find h, hlt, hfree, fun k hk => ?_⟩
  by_contra hno
  exact Nat.find_min h hk ⟨hk.trans hlt, Bool.eq_false_iff.mpr hno⟩

theorem rfdTry_eq (hn : n < 1000) (hfree : o.access (numbered f n) = false)
    (hleast : ∀ k < n, o.access (numbered f k) = true) (hle : next ≤ n) (hlt : n < next + tries) :
    o.rfdTry f tries next = some ⟨f, numbered f n, o.fopen (numbered f n)⟩ := by
  induction tries generalizing next with
  | zero => omega
  | succ tries ih =>
    unfold rfdTry
    rw [fnameBuf_eq (Nat.lt_of_le_of_lt hle hn)]
    rcases Nat.lt_or_ge next n with hk | hk
    · rw [if_pos (hleast next hk)]
      exact ih hk (by omega)
    · obtain rfl := Nat.le_antisymm hle hk
      rw [if_neg (by simp [hfree])]

/-- The search stops at the first free name. -/
theorem rfdOpen_eq (o : Opens) (hn : n < 1000) (hfree : o.access (numbered f n) = false)
    (hleast : ∀ k < n, o.access (numbered f k) = true) :
    o.rfdOpen f = some ⟨f, numbered f n, o.fopen (numbered f n)⟩ :=
  rfdTry_eq hn hfree hleast (Nat.zero_le n) (by omega)

theorem rfdTry_eq_none (hle : next + tries ≤ 1000)
    (h : ∀ n < 1000, o.access (numbered f n) = true) : o.rfdTry f tries next = none := by
  induction tries generalizing next with
  | zero => rfl
  | succ tries ih =>
    have hlt : next < 1000 := by omega
    unfold rfdTry
    rw [fnameBuf_eq hlt, if_pos (h next hlt)]
    exact ih (by omega)

theorem rfdOpen_eq_none (h : ¬ o.HasFree f) : o.rfdOpen f = none := by
  apply rfdTry_eq_none (Nat.le_refl _)
  intro n hn
  by_contra hno
  exact h ⟨n, hn, Bool.eq_false_iff.mpr hno⟩

/-- The handle has an open stream if and only if a name is free and the first one can be opened. -/
theorem isOpen_iff : IsOpen (o.rfdOpen f) ↔ o.HasFree f ∧ o.FirstOpens f := by
  by_cases hfree : o.HasFree f
  · obtain ⟨n, hn, hnfree, hleast⟩ := exists_first hfree
    rw [o.rfdOpen_eq hn hnfree hleast]
    constructor
    · rintro ⟨rfd, fd, hrfd, hfd⟩
      obtain rfl := Option.some.inj hrfd
      refine ⟨hfree, fun m _ hmfree hmleast => ?_⟩
      obtain rfl : m = n := by
        rcases Nat.lt_trichotomy m n with hlt | heq | hlt
        · simp [hleast m hlt] at hmfree
        · exact heq
        · simp [hmleast n hlt] at hnfree
      exact Option.isSome_iff_exists.mpr ⟨fd, hfd⟩
    · rintro ⟨-, hopens⟩
      obtain ⟨fd, hfd⟩ := Option.isSome_iff_exists.mp (hopens n hn hnfree hleast)
      exact ⟨_, fd, rfl, hfd⟩
  · rw [rfdOpen_eq_none hfree]
    refine iff_of_false ?_ fun h => hfree h.1
    rintro ⟨rfd, fd, h, -⟩
    cases h

/-- `rfd_open` reports a failure, or returns a handle with an open stream, if and only if it does
not come upon a free name that cannot be opened. -/
theorem reported_iff : o.rfdOpen f = none ∨ IsOpen (o.rfdOpen f) ↔ o.FirstOpens f := by
  rw [isOpen_iff]
  by_cases hfree : o.HasFree f
  · obtain ⟨n, hn, hnfree, hleast⟩ := exists_first hfree
    rw [o.rfdOpen_eq hn hnfree hleast]
    simp [hfree]
  · refine iff_of_true (.inl (rfdOpen_eq_none hfree)) fun n hn hnfree _ => ?_
    exact absurd ⟨n, hn, hnfree⟩ hfree

end Opens

/-! The answers of a file system. -/

section World
variable {D : Type} [DecidableEq D] {w : World D} {f : Bytes}

def World.opens (w : World D) : Opens where
  access := w.access
  fopen f := (w.openWrite f).map Prod.fst

theorem rfdTry_opens (tries next : ℕ) :
    rfdTry w f tries next = match w.opens.rfdTry f tries next with
    | none => (none, w)
    | some rfd => (some rfd, ((w.openWrite rfd.fname).map Prod.snd).getD w) := by
  induction tries generalizing next with
  | zero => rfl
  | succ tries ih =>
    rw [rfdTry, Opens.rfdTry]
    by_cases h : w.access (fnameBuf f next) = true
    · have h' : w.opens.access (fnameBuf f next) = true := h
      rw [if_pos h, if_pos h', ih]
    · have h' : ¬ w.opens.access (fnameBuf f next) = true := h
      rw [if_neg h, if_neg h', rfdInit]
      cases ho : w.openWrite (fnameBuf f next) with
      | none => simp [World.opens, ho]
      | some r => simp [World.opens, ho]

theorem rfdOpen_opens : rfdOpen w f = match w.opens.rfdOpen f with
    | none => (none, w)
    | some rfd => (some rfd, ((w.openWrite rfd.fname).map Prod.snd).getD w) := rfdTry_opens 1000 0

end World

end Flashflow
