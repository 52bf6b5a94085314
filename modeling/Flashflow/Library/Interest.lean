import Mathlib.Data.List.Basic
import Mathlib.Data.List.Nodup

/-! Interest lists: what is added to them and deleted from them, and the calls that are refused.
Whatever is closed leaves the list. -/
namespace Interest

variable {F : Type} [DecidableEq F]

/-- An interest list, with the things that calls were refused for. -/
structure Instance (F : Type) where
  watched : List F
  notAdded : List F
  notDeleted : List F

namespace Instance

def create : Instance F := ⟨[], [], []⟩

/-- Refused for what is closed or on the list. -/
def add (isOpen : F → Bool) (k : Instance F) (fd : F) : Instance F :=
  if isOpen fd ∧ fd ∉ k.watched then { k with watched := k.watched ++ [fd] }
  else { k with notAdded := k.notAdded ++ [fd] }

/-- Refused for what is closed or not on the list. -/
def delete (isOpen : F → Bool) (k : Instance F) (fd : F) : Instance F :=
  if isOpen fd ∧ fd ∈ k.watched then { k with watched := k.watched.filter (· ≠ fd) }
  else { k with notDeleted := k.notDeleted ++ [fd] }

/-- Only what is open stays on the list. -/
def closed (isOpen : F → Bool) (k : Instance F) : Instance F :=
  { k with watched := k.watched.filter isOpen }

variable {isOpen : F → Bool} {k : Instance F} {fds : List F}

omit [DecidableEq F] in
theorem closed_of_open (h : ∀ fd ∈ k.watched, isOpen fd = true) : k.closed isOpen = k := by
  rw [closed, List.filter_eq_self.mpr h]

/-- Open things that are not on the list are all added. -/
theorem foldl_add (hopen : ∀ fd ∈ fds, isOpen fd = true) (hnd : (k.watched ++ fds).Nodup) :
    fds.foldl (add isOpen) k = { k with watched := k.watched ++ fds } := by
  induction fds generalizing k with
  | nil => rw [List.append_nil, List.foldl_nil]
  | cons fd fds ih =>
    obtain ⟨hfd, hopen'⟩ := List.forall_mem_cons.mp hopen
    have hnew : fd ∉ k.watched := fun hmem =>
      (List.nodup_append.mp hnd).2.2 fd hmem fd List.mem_cons_self rfl
    rw [List.append_cons] at hnd
    have hadd : k.add isOpen fd = { k with watched := k.watched ++ [fd] } := if_pos ⟨hfd, hnew⟩
    rw [List.foldl_cons, hadd, ih hopen' hnd, ← List.append_cons]

/-- If all that is on the list is deleted, only what has been closed is refused. -/
theorem foldl_delete (hnd : fds.Nodup)
    (hwatched : ∀ fd, fd ∈ k.watched ↔ fd ∈ fds ∧ isOpen fd = true) :
    fds.foldl (delete isOpen) k =
      ⟨[], k.notAdded, k.notDeleted ++ fds.filter fun fd => !isOpen fd⟩ := by
  induction fds generalizing k with
  | nil =>
    have hnil : k.watched = [] := List.eq_nil_iff_forall_not_mem.mpr fun fd hfd =>
      List.not_mem_nil ((hwatched fd).mp hfd).1
    obtain ⟨watched, notAdded, notDeleted⟩ := k
    obtain rfl : watched = [] := hnil
    rw [List.foldl_nil, List.filter_nil, List.append_nil]
  | cons fd fds ih =>
    obtain ⟨hnew, hnd'⟩ := List.nodup_cons.mp hnd
    rw [List.foldl_cons, List.filter_cons]
    cases hopen : isOpen fd with
    | true =>
      have hdel : k.delete isOpen fd = { k with watched := k.watched.filter (· ≠ fd) } :=
        if_pos ⟨hopen, (hwatched fd).mpr ⟨List.mem_cons_self, hopen⟩⟩
      rw [hdel, ih hnd' fun x => ?_]
      · rfl
      · rw [List.mem_filter, hwatched, List.mem_cons, decide_eq_true_eq]
        constructor
        · rintro ⟨⟨hx, hxo⟩, hne⟩
          exact ⟨hx.resolve_left hne, hxo⟩
        · rintro ⟨hx, hxo⟩
          exact ⟨⟨.inr hx, hxo⟩, fun heq => hnew (heq ▸ hx)⟩
    | false =>
      have hdel : k.delete isOpen fd = { k with notDeleted := k.notDeleted ++ [fd] } :=
        if_neg (by simp [hopen])
      rw [hdel, ih hnd' fun x => ?_]
      · simp
      · rw [hwatched, List.mem_cons]
        constructor
        · rintro ⟨hx, hxo⟩
          exact ⟨hx.resolve_left fun heq => by simp [heq, hopen] at hxo, hxo⟩
        · exact fun ⟨hx, hxo⟩ => ⟨.inr hx, hxo⟩

end Instance
end Interest
