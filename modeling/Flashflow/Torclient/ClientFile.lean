import Flashflow.Library.Tokens
import Flashflow.Torclient.Meta

/-! `tc_client_file_read`. -/
namespace Flashflow

/-- `MAX_NUM_CTRL_SOCKS` -/
def maxNumCtrlSocks : ℕ := 4096

/-- The lines `getline` returns, each with its newline if it has one. -/
def getlines : Bytes → List Bytes
  | [] => []
  | b :: rest =>
    if b = 0x0A then [b] :: getlines rest
    else match getlines rest with
      | [] => [[b]]
      | line :: lines => (b :: line) :: lines

/-- The nonempty tokens of `strsep(&head, " \n")`. -/
def lineTokens (line : Bytes) : List Bytes :=
  Tokens.tokens (fun b => b = 0x20 || b = 0x0A) (cstr line)

/-- `tc_client_file_read` with room for `room` more clients. The fifth token of a line frees the
four strings before it, and a sixth one frees them again. -/
def readClients : ℕ → List Bytes → Except Abort (List Meta)
  | 0, _ => .ok []
  | _, [] => .ok []
  | room + 1, line :: lines =>
    if line.head? = some 0x23 then readClients (room + 1) lines
    else match lineTokens line with
      | [cls, host, port, pw] => do
        let isBg := (bytes "bg").isPrefixOf cls
        let rest ← readClients room lines
        pure ({ fd := -1, state := .invalid, cls := cls, host := host, port := port,
                pw := some pw, isBg := isBg, currentMId := 0 } :: rest)
      | tokens => if 6 ≤ tokens.length then .error .doubleFree else readClients (room + 1) lines

/-- `tc_client_file_read` on a file with this content: the clients of `metas[0..count)`. -/
def tcClientFileRead (content : Bytes) : Except Abort (List Meta) :=
  readClients maxNumCtrlSocks (getlines content)

section Lines
variable {line : Bytes} {lines : List Bytes} {room : ℕ} {xs : List Meta}

theorem readClients_nil (room : ℕ) : readClients room [] = .ok [] := by
  cases room <;> simp [readClients]

theorem readClients_comment (hc : line.head? = some 0x23) :
    readClients (room + 1) (line :: lines) = readClients (room + 1) lines := by
  rw [readClients, if_pos hc]

theorem readClients_four {a b c d : Bytes} (hc : line.head? ≠ some 0x23)
    (htokens : lineTokens line = [a, b, c, d]) : readClients (room + 1) (line :: lines) = (do
      let rest ← readClients room lines
      pure (⟨-1, .invalid, a, b, c, some d, (bytes "bg").isPrefixOf a, 0⟩ :: rest)) := by
  rw [readClients, if_neg hc, htokens]

theorem readClients_rejected (hc : line.head? ≠ some 0x23) (hlen : (lineTokens line).length ≠ 4) :
    readClients (room + 1) (line :: lines) =
      if 6 ≤ (lineTokens line).length then .error .doubleFree
      else readClients (room + 1) lines := by
  rw [readClients, if_neg hc]
  split
  next htokens => exact absurd (by rw [htokens]; rfl) hlen
  · rfl

/-- What holds of no clients, and of one more client in front in one more place, holds of those that
are read. -/
theorem readClients_invariant {motive : ℕ → List Meta → Prop} (hnil : ∀ room, motive room [])
    (hcons : ∀ room line cls host port pw xs, lineTokens line = [cls, host, port, pw] →
      motive room xs → motive (room + 1)
        (⟨-1, .invalid, cls, host, port, some pw, (bytes "bg").isPrefixOf cls, 0⟩ :: xs))
    (h : readClients room lines = .ok xs) : motive room xs := by
  induction lines generalizing room xs with
  | nil =>
    rw [readClients_nil] at h
    exact Except.ok.inj h ▸ hnil room
  | cons line lines ih =>
    cases room with
    | zero =>
      rw [readClients] at h
      exact Except.ok.inj h ▸ hnil 0
    | succ room =>
      by_cases hc : line.head? = some 0x23
      · rw [readClients_comment hc] at h
        exact ih h
      by_cases hlen : (lineTokens line).length = 4
      · obtain ⟨cls, host, port, pw, htokens⟩ := List.length_eq_four.mp hlen
        rw [readClients_four hc htokens, Outcome.bind_eq_ok] at h
        obtain ⟨rest, hrest, hxs⟩ := h
        exact Outcome.pure_eq_ok.mp hxs ▸ hcons room line cls host port pw rest htokens (ih hrest)
      · rw [readClients_rejected hc hlen] at h
        split at h
        · cases h
        · exact ih h

theorem readClients_length (h : readClients room lines = .ok xs) : xs.length ≤ room :=
  readClients_invariant (motive := fun room xs => xs.length ≤ room) (fun room => Nat.zero_le room)
    (fun _ _ _ _ _ _ _ _ hlen => Nat.succ_le_succ hlen) h

/-- Every client read from the file is idle. -/
theorem tcClientFileRead_idle {content : Bytes} (h : tcClientFileRead content = .ok xs) :
    ∀ x ∈ xs, x.idle = x :=
  readClients_invariant (motive := fun _ xs => ∀ x ∈ xs, x.idle = x) (by simp)
    (fun _ _ _ _ _ _ _ _ hxs => List.forall_mem_cons.mpr ⟨rfl, hxs⟩) h

end Lines

end Flashflow
