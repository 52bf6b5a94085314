import Mathlib.Order.Bounds.Basic
import Flashflow.Sched.Json

/-! How `sched_new_from_json` divides the connections of a measurement among its classes. -/
namespace Flashflow.Sched
open Outcome Program

/-- The division that is corrected when it leaves a rest. -/
theorem isLeast_div {n : ℕ} (hn : 0 < n) (m : ℕ) :
    IsLeast {c | m ≤ c * n} (if m / n * n < m then m / n + 1 else m / n) := by
  split
  next hrest =>
    constructor
    · have hlt := Nat.lt_mul_div_succ m hn
      rw [Nat.mul_comm] at hlt
      exact Nat.le_of_lt hlt
    · intro c hc
      exact Nat.lt_of_mul_lt_mul_right (Nat.lt_of_lt_of_le hrest hc)
  next hexact =>
    refine ⟨Nat.not_lt.mp hexact, fun c hc => ?_⟩
    exact Nat.div_le_of_le_mul (Nat.mul_comm c n ▸ hc)

/-- The classes that share 160 connections. -/
def sharing (classes : List Text) : ℕ := classes.countP (· ≠ bgClass)

/-- The connections of the classes when each of those that share has `c`. -/
def split (c : UInt32) (classes : List Text) : List UInt32 :=
  classes.map fun cls => if cls = bgClass then 1 else c

/-- `c` is computed without an underflow, a division by zero or a failed assertion, and it is the
least count that is enough. -/
def Splits (classes : List Text) : Prop :=
  (bgClass ∈ classes → 1 ≤ classes.length) ∧ ∃ c : UInt32,
    jsonConns classes = .ok (split c classes) ∧ IsLeast {c | 160 ≤ c * sharing classes} c.toNat

section Split
variable {classes : List Text} {n : UInt32}

theorem connsPerClass_isLeast (hn : n ≠ 0) :
    ∃ c, connsPerClass n = .ok c ∧ IsLeast {c | 160 ≤ c * n.toNat} c.toNat := by
  have hpos : 0 < n.toNat := by
    rw [Nat.pos_iff_ne_zero]
    exact fun h => hn (UInt32.toNat_inj.mp h)
  have hle : 160 / n.toNat * n.toNat ≤ 160 := Nat.div_mul_le_self 160 n.toNat
  have hquot : 160 / n.toNat ≤ 160 := Nat.div_le_self 160 n.toNat
  have hleast := isLeast_div hpos 160
  have hdiv : (160 / n).toNat = 160 / n.toNat := UInt32.toNat_div 160 n
  have hmul : (160 / n * n).toNat = 160 / n.toNat * n.toNat := by
    rw [UInt32.toNat_mul, hdiv, Nat.mod_eq_of_lt (by omega)]
  have hlt : 160 / n * n < 160 ↔ 160 / n.toNat * n.toNat < 160 := by
    rw [UInt32.lt_iff_toNat_lt, hmul]
    exact Iff.rfl
  refine ⟨if 160 / n * n < 160 then 160 / n + 1 else 160 / n, by rw [connsPerClass, if_neg hn], ?_⟩
  by_cases hrest : 160 / n * n < 160
  · rw [if_pos (hlt.mp hrest)] at hleast
    have hsucc : (160 / n + 1).toNat = 160 / n.toNat + 1 := by
      have hone : (1 : UInt32).toNat = 1 := rfl
      rw [UInt32.toNat_add, hdiv, hone]
      exact Nat.mod_eq_of_lt (by omega)
    rwa [if_pos hrest, hsucc]
  · rw [if_neg (mt hlt.mpr hrest)] at hleast
    rwa [if_neg hrest, hdiv]

/-- What the classes have together. -/
theorem sum_split (c : UInt32) (classes : List Text) : ((split c classes).map UInt32.toNat).sum =
    c.toNat * sharing classes + classes.count bgClass := by
  induction classes with
  | nil => rfl
  | cons cls classes ih =>
    have hsum : ((split c (cls :: classes)).map UInt32.toNat).sum =
        (if cls = bgClass then 1 else c : UInt32).toNat +
          ((split c classes).map UInt32.toNat).sum := rfl
    rw [hsum, ih, sharing, sharing, List.countP_cons, List.count_cons]
    by_cases hcls : cls = bgClass
    · simp [hcls]
      omega
    · simp [hcls, Nat.mul_add]
      omega

theorem sharing_add_count (classes : List Text) :
    sharing classes + classes.count bgClass = classes.length := by
  have hlen := List.length_eq_countP_add_countP (· ≠ bgClass) (l := classes)
  rw [hlen, sharing, List.count]
  congr 1
  apply List.countP_congr
  intro cls _
  simp

theorem pos_of_enough {c : ℕ} (h : 160 ≤ c * sharing classes) : 0 < c ∧ 0 < sharing classes := by
  rw [Nat.pos_iff_ne_zero, Nat.pos_iff_ne_zero]
  constructor
  · rintro rfl
    simp at h
  · intro hzero
    simp [hzero] at h

/-- What the code divides by. -/
theorem divisor_eq (hnd : classes.Nodup) :
    (if bgClass ∈ classes then classes.length - 1 else classes.length) = sharing classes := by
  have hcount := sharing_add_count classes
  split
  next hmem =>
    have hone := List.count_eq_one_of_mem hnd hmem
    omega
  next hmem =>
    have hzero := List.count_eq_zero_of_not_mem hmem
    omega

theorem sharing_pos_iff : 0 < sharing classes ↔ ∃ cls ∈ classes, cls ≠ bgClass := by
  simp [sharing, List.countP_pos_iff]

theorem jsonConns_eq {c : UInt32} (hnd : classes.Nodup)
    (hconn : connsPerClass (UInt32.ofNat (sharing classes)) = .ok c)
    (henough : 160 ≤ c.toNat * sharing classes)
    (hsum : c.toNat * sharing classes + classes.count bgClass < 2 ^ 32) :
    jsonConns classes = .ok (split c classes) := by
  have htotal : u32Sum (split c classes) =
      .ok (UInt32.ofNat (c.toNat * sharing classes + classes.count bgClass)) := by
    rw [u32Sum, sum_split, if_pos hsum]
  simp only [jsonConns, decide_eq_true_eq, divisor_eq hnd, bind_eq_ok, pure_eq_ok, failIf_eq_ok]
  refine ⟨c, hconn, _, htotal, (), ?_, rfl⟩
  rw [UInt32.lt_iff_toNat_lt, UInt32.toNat_ofNat_of_lt' hsum, Nat.not_lt]
  split
  next hmem =>
    have hone := List.count_eq_one_of_mem hnd hmem
    exact Nat.add_le_add henough (Nat.le_of_eq hone.symm)
  next => exact Nat.le_add_right_of_le henough

/-- The least count does not make the sum much larger than it has to be. -/
theorem sum_split_le {c : ℕ} (hleast : IsLeast {c | 160 ≤ c * sharing classes} c) :
    c * sharing classes ≤ max 25600 (sharing classes) := by
  obtain ⟨-, hpos⟩ := pos_of_enough hleast.1
  rcases Nat.lt_or_ge (sharing classes) 160 with hfew | hmany
  · have hc : c ≤ 160 := hleast.2 (show 160 ≤ 160 * sharing classes by omega)
    have hprod : c * sharing classes ≤ 160 * 160 := Nat.mul_le_mul hc (Nat.le_of_lt hfew)
    omega
  · have hc : c ≤ 1 := hleast.2 (show 160 ≤ 1 * sharing classes by omega)
    have hprod : c * sharing classes ≤ 1 * sharing classes := Nat.mul_le_mul_right _ hc
    omega

theorem sum_split_lt {c : UInt32} (h : jsonConns classes = .ok (split c classes)) :
    c.toNat * sharing classes + classes.count bgClass < 2 ^ 32 := by
  simp only [jsonConns, bind_eq_ok, pure_eq_ok] at h
  obtain ⟨conn, -, total, htotal, -, -, hsplit⟩ := h
  rw [hsplit, u32Sum, sum_split] at htotal
  by_contra hge
  rw [if_neg hge] at htotal
  cases htotal

/-- An entry is divided as it is to be if and only if it has a class other than the background one
and its classes can be counted in 32 bits. -/
theorem splits_iff (hnd : classes.Nodup) :
    Splits classes ↔ (∃ cls ∈ classes, cls ≠ bgClass) ∧ classes.length < 2 ^ 32 := by
  have hcount := sharing_add_count classes
  have hbg := List.nodup_iff_count_le_one.mp hnd bgClass
  rw [← sharing_pos_iff]
  constructor
  · rintro ⟨-, c, hok, henough, -⟩
    have hsum := sum_split_lt hok
    obtain ⟨hc, hpos⟩ := pos_of_enough henough
    have hle : 1 * sharing classes ≤ c.toNat * sharing classes := Nat.mul_le_mul_right _ hc
    exact ⟨hpos, by omega⟩
  · rintro ⟨hpos, hlt⟩
    have htoNat : (UInt32.ofNat (sharing classes)).toNat = sharing classes :=
      UInt32.toNat_ofNat_of_lt' (Nat.lt_of_le_of_lt (by omega) hlt)
    have hne : UInt32.ofNat (sharing classes) ≠ 0 := by
      intro hzero
      rw [hzero] at htoNat
      exact Nat.ne_of_lt hpos htoNat
    obtain ⟨c, hconn, hleast⟩ := connsPerClass_isLeast hne
    rw [htoNat] at hleast
    have hsum := sum_split_le hleast
    refine ⟨fun hmem => List.length_pos_of_mem hmem, c, ?_, hleast⟩
    exact jsonConns_eq hnd hconn hleast.1 (by omega)

end Split

/-- The condition for an entry of the file. -/
theorem entry_splits_iff (e : JsonMap UInt32) : Splits (e.entries.map Prod.fst) ↔
    (∃ c ∈ e.entries, c.1 ≠ bgClass) ∧ e.entries.length < 2 ^ 32 := by
  rw [splits_iff e.nodup, List.length_map]
  simp

def noClasses : JsonMap UInt32 := ⟨[], List.nodup_nil⟩

def onlyBg : JsonMap UInt32 := ⟨[(bgClass, 125000)], List.nodup_singleton _⟩

def oneRelay (e : JsonMap UInt32) : JsonSet := ⟨[("AA".toList, e)], List.nodup_singleton _⟩

/-- The conversion divides by zero if no class is left to share the connections. -/
theorem entry_not_splits :
    (¬ Splits (noClasses.entries.map Prod.fst) ∧
      (exec (schedNewFromJson .empty [oneRelay noClasses]) []).1 = .error .divideByZero) ∧
    ¬ Splits (onlyBg.entries.map Prod.fst) ∧
      (exec (schedNewFromJson .empty [oneRelay onlyBg]) []).1 = .error .divideByZero := by
  refine ⟨⟨?_, rfl⟩, ?_, rfl⟩
  · rintro ⟨-, c, hok, -⟩
    cases hok
  · rintro ⟨-, c, hok, -⟩
    cases hok

end Flashflow.Sched
