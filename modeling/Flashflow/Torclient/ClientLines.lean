import Flashflow.Torclient.ClientTable

/-! Which lines of a client file become entries of the table. -/
namespace Flashflow
open Outcome Tokens

/-- The nonempty tokens of a line, between spaces and newlines. -/
def fields (line : Bytes) : List Bytes := tokens (fun b => b = 0x20 || b = 0x0A) line

/-- The lines that are no comments and have exactly four tokens, in order. -/
def clientLines (content : Bytes) : List Bytes :=
  (getlines content).filter fun line => line.head? ≠ some 0x23 ∧ (fields line).length = 4

/-- The entry holds what is on the line, and is otherwise new. -/
structure Entry.Holds (e : Entry) (line : Bytes) : Prop where
  strings : fields line = [e.cls.text, e.host.text, e.port.text, e.pw.text]
  fd : e.fd = -1
  state : e.state = .invalid
  currentMId : e.currentMId = 0
  isBg : e.isBg = true ↔ bytes "bg" <+: e.cls.text

theorem flatten_getlines (content : Bytes) : (getlines content).flatten = content := by
  induction content with
  | nil => rfl
  | cons b rest ih =>
    rw [getlines]
    split
    · rw [List.flatten_cons, ih]
      rfl
    · split
      next heq =>
        rw [heq] at ih
        rw [← ih]
        rfl
      next heq =>
        rw [heq] at ih
        rw [← ih]
        rfl

theorem lineTokens_eq {line : Bytes} (h0 : 0 ∉ line) : lineTokens line = fields line := by
  rw [lineTokens, cstr_of_not_mem h0, fields]

namespace ClientTable

variable {t t' : ClientTable} {lines : List Bytes}

/-- The entries behind the ones in use are left alone. -/
theorem readLine_untouched {line : Bytes} {h : t.count < maxNumCtrlSocks}
    (hread : t.readLine h line = .ok t') :
    t.count ≤ t'.count ∧
      ∀ i (hi : i < maxNumCtrlSocks), t'.count ≤ i → t'.metas[i] = t.metas[i] := by
  rcases readLine_cases hread with ⟨-, rfl⟩ | ⟨-, a, b, c, d, rfl⟩ | ⟨-, -, strings, rfl, -⟩
  · exact ⟨Nat.le_refl _, fun i hi _ => rfl⟩
  · exact ⟨Nat.le_succ _, fun i hi hle => Vector.getElem_set_ne h hi (Nat.ne_of_lt hle)⟩
  · exact ⟨Nat.le_refl _, fun i hi _ => rfl⟩

theorem readLines_untouched (hread : readLines lines t = .ok t') :
    t.count ≤ t'.count ∧
      ∀ i (hi : i < maxNumCtrlSocks), t'.count ≤ i → t'.metas[i] = t.metas[i] := by
  induction lines generalizing t with
  | nil =>
    obtain rfl : t = t' := pure_eq_ok.mp hread
    exact ⟨Nat.le_refl _, fun i hi _ => rfl⟩
  | cons line lines ih =>
    rw [readLines] at hread
    split at hread
    · obtain ⟨t₁, hline, hrest⟩ := bind_eq_ok.mp hread
      obtain ⟨hle₁, hsame₁⟩ := readLine_untouched hline
      obtain ⟨hle, hsame⟩ := ih hrest
      exact ⟨Nat.le_trans hle₁ hle, fun i hi hcount =>
        (hsame i hi hcount).trans (hsame₁ i hi (Nat.le_trans hle hcount))⟩
    · obtain rfl : t = t' := pure_eq_ok.mp hread
      exact ⟨Nat.le_refl _, fun i hi _ => rfl⟩

end ClientTable

section Clients
variable {lines : List Bytes} {content : Bytes}

/-- The client that is read from a line. -/
def EntryOf (x : Meta) (line : Bytes) : Prop := ∃ a b c d, fields line = [a, b, c, d] ∧
  x = ⟨-1, .invalid, a, b, c, some d, (bytes "bg").isPrefixOf a, 0⟩

/-- Without lines of more than five tokens, every client line is read until there is no room. -/
theorem readClients_ok (h : ∀ line ∈ lines, 0 ∉ line ∧
      (line.head? ≠ some 0x23 → (fields line).length ≤ 5)) (room : ℕ) :
    ∃ xs, readClients room lines = .ok xs ∧ List.Forall₂ EntryOf xs ((lines.filter fun line =>
      line.head? ≠ some 0x23 ∧ (fields line).length = 4).take room) := by
  induction lines generalizing room with
  | nil => exact ⟨[], readClients_nil room, by simp⟩
  | cons line lines ih =>
    obtain ⟨⟨h0, hfive⟩, hrest⟩ := List.forall_mem_cons.mp h
    cases room with
    | zero => exact ⟨[], by simp [readClients], by simp⟩
    | succ room =>
      have htokens := lineTokens_eq h0
      by_cases hc : line.head? = some 0x23
      · rw [readClients_comment hc, List.filter_cons_of_neg (by simp [hc])]
        exact ih hrest (room + 1)
      by_cases hlen : (fields line).length = 4
      · obtain ⟨xs, hxs, hall⟩ := ih hrest room
        obtain ⟨a, b, c, d, hfields⟩ := List.length_eq_four.mp hlen
        rw [List.filter_cons_of_pos (by simp [hc, hlen]), List.take_succ_cons,
          readClients_four hc (htokens.trans hfields), hxs]
        exact ⟨_, rfl, .cons ⟨a, b, c, d, hfields, rfl⟩ hall⟩
      · have hfew := hfive hc
        rw [List.filter_cons_of_neg (by simp [hlen]), readClients_rejected hc (htokens ▸ hlen),
          htokens, if_neg (by omega)]
        exact ih hrest (room + 1)

theorem Entry.holds_of_meta {e : Entry} {line : Bytes} (h : EntryOf e.meta line) :
    e.Holds line := by
  obtain ⟨a, b, c, d, hfields, hmeta⟩ := h
  obtain ⟨fd, state, cls, host, port, pw, isBg, currentMId⟩ := e
  simp only [Entry.meta, Meta.mk.injEq, Option.some.injEq] at hmeta
  obtain ⟨rfl, rfl, rfl, rfl, rfl, rfl, rfl, rfl⟩ := hmeta
  exact ⟨hfields, rfl, rfl, rfl, List.isPrefixOf_iff_prefix⟩

/-- The entries of the table are the client lines of the file in their order, as many as there is
room for, and the rest of the array is left alone. -/
theorem client_file_exact (h0 : 0 ∉ content) (h5 : ∀ line ∈ getlines content,
      line.head? ≠ some 0x23 → (fields line).length ≤ 5) (metas : Vector Entry maxNumCtrlSocks) :
    ∃ t, ClientTable.read metas content = .ok t ∧
      t.count = min maxNumCtrlSocks (clientLines content).length ∧
      (∀ i (hi : i < maxNumCtrlSocks), i < t.count →
        ∃ line, (clientLines content)[i]? = some line ∧ t.metas[i].Holds line) ∧
      ∀ i (hi : i < maxNumCtrlSocks), t.count ≤ i → t.metas[i] = metas[i] := by
  have hlines : ∀ line ∈ getlines content, 0 ∉ line := by
    intro line hline hmem
    rw [← flatten_getlines content] at h0
    exact h0 (List.mem_flatten.mpr ⟨line, hline, hmem⟩)
  obtain ⟨xs, hxs, hall⟩ := readClients_ok (fun line hline => ⟨hlines line hline, h5 line hline⟩)
    maxNumCtrlSocks
  have hread := ClientTable.read_clients metas content
  rw [tcClientFileRead, hxs] at hread
  cases hok : ClientTable.read metas content with
  | error e =>
    rw [hok] at hread
    cases hread
  | ok t =>
    rw [hok] at hread
    have hentries : t.entries.map Entry.meta = xs := Except.ok.inj hread
    have hlen : t.count = xs.length := by
      rw [← hentries, List.length_map, ClientTable.length_entries]
    refine ⟨t, rfl, ?_, fun i hi hcount => ?_, (ClientTable.readLines_untouched hok).2⟩
    · rw [hlen, hall.length_eq, List.length_take]
      rfl
    · have hx : i < xs.length := hlen ▸ hcount
      have hy : i < ((clientLines content).take maxNumCtrlSocks).length := hall.length_eq ▸ hx
      have hmeta : xs[i] = t.metas[i].meta := by
        simp [← hentries, ClientTable.entries]
      have hline : (clientLines content)[i]? =
          some ((clientLines content).take maxNumCtrlSocks)[i] := by
        rw [← List.getElem?_take_of_lt hi, List.getElem?_eq_getElem hy]
      exact ⟨_, hline, Entry.holds_of_meta (hmeta ▸ hall.get hx hy)⟩

/-- Two clients among a comment, an empty line, one that is too short and one that is too long. -/
theorem client_file_mixed : ∃ t, ClientTable.read (Vector.replicate maxNumCtrlSocks unusedEntry)
      (bytes "# c\n\na b c\nm  h 1 p\na b c d e\nbg1 h 2 q") = .ok t ∧ t.count = 2 ∧
    ∀ i (hi : i < maxNumCtrlSocks), 2 ≤ i → t.metas[i] = unusedEntry := by
  have h0 : 0 ∉ bytes "# c\n\na b c\nm  h 1 p\na b c d e\nbg1 h 2 q" := by decide +kernel
  obtain ⟨t, hread, hcount, -, hrest⟩ := client_file_exact h0 (by decide +kernel)
    (Vector.replicate maxNumCtrlSocks unusedEntry)
  have htwo : t.count = 2 := hcount.trans (by decide +kernel)
  refine ⟨t, hread, htwo, fun i hi hle => ?_⟩
  rw [hrest i hi (htwo.symm ▸ hle), Vector.getElem_replicate]

end Clients

end Flashflow
