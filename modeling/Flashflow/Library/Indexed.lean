import Flashflow.Library.Watch

/-! Programs on an array that are watched for the cells they use. An index outside of the array ends
the run. -/
namespace Indexed
open Program Watch

inductive Access where
  | read (i : Int)
  | write (i : Int)
  deriving DecidableEq

def Access.index : Access → Int
  | .read i => i
  | .write i => i

/-- A program on an array with cells in `α`. -/
abbrev ArrayProg (α ε : Type) := Prog (Watched (List α) Access) ε

variable {α ε β : Type}

/-- The cell with an index, which may also be in front of the array. -/
def cellAt (l : List α) (i : Int) : Option α := if 0 ≤ i then l[i.toNat]? else none

@[simp] theorem cellAt_natCast (l : List α) (i : ℕ) : cellAt l i = l[i]? := by simp [cellAt]

theorem cellAt_of_neg (l : List α) {i : Int} (h : i < 0) : cellAt l i = none :=
  if_neg (Int.not_le.mpr h)

def readAt (oob : ε) (i : Int) : ArrayProg α ε α := do
  observe (.read i)
  let w ← getState
  match cellAt w.state i with
  | none => abort oob
  | some x => pure x

def writeAt (oob : ε) (i : Int) (x : α) : ArrayProg α ε Unit := do
  observe (.write i)
  let w ← getState
  match cellAt w.state i with
  | none => abort oob
  | some _ => modifyState fun w => { w with state := w.state.set i.toNat x }

/-- An access to one of the cells `0`, …, `n`. -/
def UpTo (n : ℕ) (a : Access) : Prop := 0 ≤ a.index ∧ a.index ≤ n

section Rules
variable {oob : ε} {w : Watched (List α) Access} {E : ε → Watched (List α) Access → Prop}
  {i n : ℕ} {x y : α}

theorem wp_readAt (h : w.state[i]? = some x) (hi : i ≤ n) : wp (readAt oob (i : Int))
    (fun y w' => y = x ∧ w'.state = w.state ∧ Adds (UpTo n) w w') E w := by
  simp only [readAt, observe, wp_bind, wp_modifyState, wp_getState, cellAt_natCast, h, wp_pure]
  exact ⟨trivial, trivial, adds_one rfl ⟨Int.natCast_nonneg i, Int.ofNat_le.mpr hi⟩⟩

theorem wp_writeAt (h : w.state[i]? = some x) (hi : i ≤ n) : wp (writeAt oob (i : Int) y)
    (fun _ w' => w'.state = w.state.set i y ∧ Adds (UpTo n) w w') E w := by
  simp only [writeAt, observe, wp_bind, wp_modifyState, wp_getState, cellAt_natCast, h,
    Int.toNat_natCast]
  exact ⟨trivial, adds_one rfl ⟨Int.natCast_nonneg i, Int.ofNat_le.mpr hi⟩⟩

/-- Reading in front of the array. -/
theorem wp_readAt_front {i : Int} (h : i < 0) {Q : α → Watched (List α) Access → Prop} :
    wp (readAt oob i) Q (fun e w' => e = oob ∧ .read i ∈ w'.seen) w := by
  simp only [readAt, observe, wp_bind, wp_modifyState, wp_getState, cellAt_of_neg _ h, wp_abort]
  simp

end Rules

end Indexed
