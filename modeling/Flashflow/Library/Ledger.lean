import Mathlib.Data.Finset.Insert
import Mathlib.Data.Finset.Erase

/-! Names that are handed out one after the other, and given back: which of them are in use. -/

/-- The names from `next` on have not been handed out. -/
structure Ledger where
  next : ℕ
  live : Finset ℕ
  live_lt : ∀ i ∈ live, i < next

namespace Ledger

variable {l : Ledger} {i : ℕ}

def empty : Ledger := ⟨0, ∅, by simp⟩

/-- The name that is handed out is `l.next`. -/
def acquire (l : Ledger) : Ledger where
  next := l.next + 1
  live := insert l.next l.live
  live_lt i hi := by
    rcases Finset.mem_insert.mp hi with rfl | hi
    · exact Nat.lt_succ_self _
    · exact Nat.lt_succ_of_lt (l.live_lt i hi)

def drop (l : Ledger) (i : ℕ) : Ledger where
  next := l.next
  live := l.live.erase i
  live_lt j hj := l.live_lt j (Finset.mem_of_mem_erase hj)

/-- A name can only be given back while it is in use. -/
def release (l : Ledger) (i : ℕ) : Option Ledger := if i ∈ l.live then some (l.drop i) else none

@[simp] theorem acquire_next (l : Ledger) : l.acquire.next = l.next + 1 := rfl

@[simp] theorem mem_acquire : i ∈ l.acquire.live ↔ i = l.next ∨ i ∈ l.live := Finset.mem_insert

@[simp] theorem mem_drop {j : ℕ} : j ∈ (l.drop i).live ↔ j ≠ i ∧ j ∈ l.live := Finset.mem_erase

/-- What is handed out is not in use. -/
theorem fresh (h : l.next ≤ i) : i ∉ l.live := fun hi => Nat.not_lt.mpr h (l.live_lt i hi)

theorem release_of_mem (h : i ∈ l.live) : l.release i = some (l.drop i) := if_pos h

theorem release_of_not_mem (h : i ∉ l.live) : l.release i = none := if_neg h

end Ledger
