import Flashflow.Library.Ledger
import Flashflow.Torclient.ClientFile

/-! `tc_client_file_read` with its array of clients and with the strings that it duplicates and
frees. -/
namespace Flashflow
open Outcome Tokens

/-- A string from `strdup`: which one it is, and what is in it. -/
structure Str where
  id : ℕ
  text : Bytes
  deriving DecidableEq

/-- The string that `strdup` makes of `text`, when it is the next one. -/
def strdup (strings : Ledger) (text : Bytes) : Str := ⟨strings.next, text⟩

/-- `free`; there is nothing to do for `NULL`. -/
def free (strings : Ledger) : Option Str → Except Abort Ledger
  | none => .ok strings
  | some s =>
    match strings.release s.id with
    | some strings => .ok strings
    | none => .error .doubleFree

/-- The variables of the loop over the tokens of a line. -/
structure LineVars where
  cls : Option Str
  host : Option Str
  port : Option Str
  pw : Option Str
  tokenNum : ℕ
  strings : Ledger

/-- One turn of the loop over the tokens. -/
def LineVars.token (v : LineVars) (token : Bytes) : Except Abort LineVars :=
  if token = [] then pure v
  else do
    let s := strdup v.strings token
    let v ← match v.tokenNum with
      | 0 => pure { v with cls := some s, strings := v.strings.acquire }
      | 1 => pure { v with host := some s, strings := v.strings.acquire }
      | 2 => pure { v with port := some s, strings := v.strings.acquire }
      | 3 => pure { v with pw := some s, strings := v.strings.acquire }
      | _ => do
        let strings ← free v.strings v.cls
        let strings ← free strings v.host
        let strings ← free strings v.port
        let strings ← free strings v.pw
        pure { v with strings := strings }
    pure { v with tokenNum := v.tokenNum + 1 }

/-- `struct ctrl_sock_meta`, with pointers to its strings. -/
structure Entry where
  fd : Int
  state : CsmState
  cls : Str
  host : Str
  port : Str
  pw : Str
  isBg : Bool
  currentMId : UInt32
  deriving DecidableEq

/-- For an entry that is not in use. -/
def unusedEntry : Entry := ⟨0, .invalid, ⟨0, []⟩, ⟨0, []⟩, ⟨0, []⟩, ⟨0, []⟩, false, 0⟩

/-- `metas`, of which the first `count` entries are in use, and the strings in use. -/
structure ClientTable where
  count : ℕ
  count_le : count ≤ maxNumCtrlSocks
  metas : Vector Entry maxNumCtrlSocks
  strings : Ledger

namespace ClientTable

/-- Before the first line. Nothing is known of what is in the array. -/
def start (metas : Vector Entry maxNumCtrlSocks) : ClientTable := ⟨0, Nat.zero_le _, metas, .empty⟩

/-- What is done with a line that is not a comment: `line` up to its first zero. -/
def readTokens (t : ClientTable) (line : Bytes) : Except Abort LineVars :=
  (line.splitOnP fun b => b = 0x20 || b = 0x0A).foldlM LineVars.token
    ⟨none, none, none, none, 0, t.strings.acquire⟩

/-- The body of the loop over the lines. -/
def readLine (t : ClientTable) (h : t.count < maxNumCtrlSocks) (line : Bytes) :
    Except Abort ClientTable :=
  if line.head? = some 0x23 then pure t
  else do
    let tofree := strdup t.strings (cstr line)
    let v ← t.readTokens tofree.text
    match v.cls, v.host, v.port, v.pw with
    | some cls, some host, some port, some pw =>
      if v.tokenNum ≠ 4 then pure { t with strings := v.strings }
      else do
        let strings ← free v.strings (some tofree)
        let isBg := (bytes "bg").isPrefixOf cls.text
        let entry : Entry := { fd := -1, state := .invalid, cls := cls, host := host, port := port,
                               pw := pw, isBg := isBg, currentMId := 0 }
        pure { count := t.count + 1, count_le := h, metas := t.metas.set t.count entry,
               strings := strings }
    | _, _, _, _ => pure { t with strings := v.strings }

/-- The loop over the lines, while there is room. -/
def readLines : List Bytes → ClientTable → Except Abort ClientTable
  | [], t => pure t
  | line :: lines, t =>
    if h : t.count < maxNumCtrlSocks then do readLines lines (← t.readLine h line) else pure t

/-- `tc_client_file_read` on a file with this content; it returns `count`. -/
def read (metas : Vector Entry maxNumCtrlSocks) (content : Bytes) : Except Abort ClientTable :=
  readLines (getlines content) (start metas)

end ClientTable

section Strings
variable {l : Ledger} {s : Str}

theorem free_live (h : s.id ∈ l.live) : free l (some s) = .ok (l.drop s.id) := by
  rw [free, Ledger.release_of_mem h]

theorem free_dead (h : s.id ∉ l.live) : free l (some s) = .error .doubleFree := by
  rw [free, Ledger.release_of_not_mem h]

end Strings

/-! The loop over the tokens. -/

section Line
variable {a b c d : Bytes} {toks : List Bytes}

/-- The variables after the first four tokens. -/
def LineVars.four (l : Ledger) (a b c d : Bytes) : LineVars :=
  ⟨some ⟨l.next, a⟩, some ⟨l.next + 1, b⟩, some ⟨l.next + 2, c⟩, some ⟨l.next + 3, d⟩, 4,
    l.acquire.acquire.acquire.acquire⟩

theorem readTokens_eq (t : ClientTable) (line : Bytes) : t.readTokens (cstr line) =
    (lineTokens line).foldlM LineVars.token ⟨none, none, none, none, 0, t.strings.acquire⟩ := by
  refine foldlM_filter (fun v token htoken => ?_) _ _
  obtain rfl : token = [] := by simpa using htoken
  rfl

theorem foldlM_four (ha : a ≠ []) (hb : b ≠ []) (hc : c ≠ []) (hd : d ≠ []) (l : Ledger) :
    [a, b, c, d].foldlM LineVars.token ⟨none, none, none, none, 0, l⟩ =
      .ok (.four l a b c d) := by
  simp [LineVars.token, LineVars.four, strdup, ha, hb, hc, hd, bind, Except.bind, pure, Except.pure]

/-- The variables after the fifth token, which frees the strings of the first four. -/
def LineVars.five (l : Ledger) (a b c d : Bytes) : LineVars :=
  { LineVars.four l a b c d with
    tokenNum := 5,
    strings := ((((LineVars.four l a b c d).strings.drop l.next).drop (l.next + 1)).drop
      (l.next + 2)).drop (l.next + 3) }

theorem LineVars.four_token {e : Bytes} (he : e ≠ []) (l : Ledger) :
    (LineVars.four l a b c d).token e = .ok (.five l a b c d) := by
  have hfree : ∀ {l : Ledger} {i : ℕ} {s : Bytes}, i ∈ l.live →
      free l (some ⟨i, s⟩) = .ok (l.drop i) := fun h => free_live h
  simp [LineVars.token, LineVars.four, LineVars.five, he, hfree, bind, Except.bind, pure,
    Except.pure]

/-- The sixth token frees them again. -/
theorem LineVars.five_token {f : Bytes} (hf : f ≠ []) (l : Ledger) :
    (LineVars.five l a b c d).token f = .error .doubleFree := by
  have hfree : ∀ {l : Ledger} {i : ℕ} {s : Bytes}, i ∉ l.live →
      free l (some ⟨i, s⟩) = .error .doubleFree := fun h => free_dead h
  simp [LineVars.token, LineVars.four, LineVars.five, hf, hfree, bind, Except.bind]

/-- Each of the first four tokens is duplicated. -/
theorem LineVars.token_early {v : LineVars} {token : Bytes} (ht : token ≠ [])
    (h : v.tokenNum < 4) : ∃ v', v.token token = .ok v' ∧ v'.tokenNum = v.tokenNum + 1 ∧
      v'.strings = v.strings.acquire := by
  obtain ⟨cls, host, port, pw, n, strings⟩ := v
  match n, h with
  | 0, _ => exact ⟨_, if_neg ht, rfl, rfl⟩
  | 1, _ => exact ⟨_, if_neg ht, rfl, rfl⟩
  | 2, _ => exact ⟨_, if_neg ht, rfl, rfl⟩
  | 3, _ => exact ⟨_, if_neg ht, rfl, rfl⟩

theorem foldlM_early {v : LineVars} (hne : ∀ t ∈ toks, t ≠ [])
    (h : v.tokenNum + toks.length ≤ 4) : ∃ v', toks.foldlM LineVars.token v = .ok v' ∧
      v'.tokenNum = v.tokenNum + toks.length ∧
      ∀ i ∈ v.strings.live, i ∈ v'.strings.live := by
  induction toks generalizing v with
  | nil => exact ⟨v, rfl, rfl, fun i hi => hi⟩
  | cons t toks ih =>
    obtain ⟨ht, hrest⟩ := List.forall_mem_cons.mp hne
    rw [List.length_cons] at h
    obtain ⟨v₁, hv₁, hnum, hstrings⟩ := LineVars.token_early (v := v) ht (by omega)
    obtain ⟨v', hv', hnum', hlive⟩ := ih (v := v₁) hrest (by omega)
    refine ⟨v', ?_, ?_, fun i hi => hlive i ?_⟩
    · rw [List.foldlM_cons, hv₁]
      exact hv'
    · rw [hnum', hnum, List.length_cons]
      omega
    · rw [hstrings]
      exact Ledger.mem_acquire.mpr (.inr hi)

/-- A line that does not have four tokens: with six or more a string is freed twice, and otherwise
the strings that were in use still are. -/
theorem foldlM_rejected (hne : ∀ t ∈ toks, t ≠ []) (hlen : toks.length ≠ 4) (l : Ledger) :
    6 ≤ toks.length ∧
      toks.foldlM LineVars.token ⟨none, none, none, none, 0, l⟩ = .error .doubleFree ∨
    toks.length ≤ 5 ∧ ∃ v, toks.foldlM LineVars.token ⟨none, none, none, none, 0, l⟩ = .ok v ∧
      v.tokenNum ≠ 4 ∧ ∀ i ∈ l.live, i ∈ v.strings.live := by
  by_cases hshort : toks.length ≤ 4
  · obtain ⟨v, hv, hnum, hlive⟩ := foldlM_early (v := ⟨none, none, none, none, 0, l⟩) hne
      (by simpa using hshort)
    rw [Nat.zero_add] at hnum
    exact .inr ⟨by omega, v, hv, hnum ▸ hlen, hlive⟩
  · match toks, hshort with
    | [], h | [_], h | [_, _], h | [_, _, _], h | [_, _, _, _], h => exact absurd (by simp) h
    | a :: b :: c :: d :: e :: rest, _ =>
      simp only [List.forall_mem_cons] at hne
      obtain ⟨ha, hb, hc, hd, he, hrest⟩ := hne
      have hfive : ([a, b, c, d] ++ e :: rest).foldlM LineVars.token
          ⟨none, none, none, none, 0, l⟩ = rest.foldlM LineVars.token (.five l a b c d) := by
        rw [List.foldlM_append, foldlM_four ha hb hc hd]
        simp only [bind, Except.bind, List.foldlM_cons, LineVars.four_token he]
      cases rest with
      | nil =>
        refine .inr ⟨by simp, _, hfive, by simp [LineVars.five], fun i hi => ?_⟩
        have hlt := l.live_lt i hi
        simp only [LineVars.five, LineVars.four, Ledger.mem_drop, Ledger.mem_acquire,
          Ledger.acquire_next]
        refine ⟨by omega, by omega, by omega, by omega, ?_⟩
        exact .inr (.inr (.inr (.inr hi)))
      | cons f rest =>
        refine .inl ⟨by simp, hfive.trans ?_⟩
        rw [List.foldlM_cons, LineVars.five_token (hrest f List.mem_cons_self)]
        rfl

end Line

/-! A line. -/

/-- A line that is read into an entry. -/
def IsClient (line : Bytes) : Prop := line.head? ≠ some 0x23 ∧ (lineTokens line).length = 4

instance : DecidablePred IsClient := fun line =>
  inferInstanceAs (Decidable (line.head? ≠ some 0x23 ∧ (lineTokens line).length = 4))

/-- The entry of a line with these tokens, when its strings are the next ones. -/
def Entry.ofTokens (l : Ledger) (a b c d : Bytes) : Entry where
  fd := -1
  state := .invalid
  cls := ⟨l.next, a⟩
  host := ⟨l.next + 1, b⟩
  port := ⟨l.next + 2, c⟩
  pw := ⟨l.next + 3, d⟩
  isBg := (bytes "bg").isPrefixOf a
  currentMId := 0

namespace ClientTable

/-- After a line with these tokens. -/
def push (t : ClientTable) (h : t.count < maxNumCtrlSocks) (a b c d : Bytes) : ClientTable where
  count := t.count + 1
  count_le := h
  metas := t.metas.set t.count (.ofTokens t.strings.acquire a b c d)
  strings := (LineVars.four t.strings.acquire a b c d).strings.drop t.strings.next

section Line
variable {t : ClientTable} {h : t.count < maxNumCtrlSocks} {line : Bytes}

theorem readLine_comment (hc : line.head? = some 0x23) : t.readLine h line = .ok t := if_pos hc

theorem lineTokens_ne_nil (line : Bytes) : ∀ token ∈ lineTokens line, token ≠ [] :=
  fun _ htoken => (mem_tokens htoken).1

theorem readLine_four {a b c d : Bytes} (hc : line.head? ≠ some 0x23)
    (htokens : lineTokens line = [a, b, c, d]) :
    t.readLine h line = .ok (t.push h a b c d) := by
  have hne := lineTokens_ne_nil line
  simp only [htokens, List.forall_mem_cons] at hne
  obtain ⟨ha, hb, hc', hd, -⟩ := hne
  have hread : t.readTokens (strdup t.strings (cstr line)).text =
      .ok (.four t.strings.acquire a b c d) := by
    rw [strdup, readTokens_eq, htokens, foldlM_four ha hb hc' hd]
  have hfree : free (LineVars.four t.strings.acquire a b c d).strings
      (some (strdup t.strings (cstr line))) = .ok (t.push h a b c d).strings :=
    free_live (by simp [LineVars.four, strdup])
  rw [readLine, if_neg hc]
  simp only [hread, bind, Except.bind]
  rw [LineVars.four] at hfree ⊢
  simp only [ne_eq, not_true_eq_false, ↓reduceIte, hfree]
  rfl

/-- A rejected line leaves its working copy in use, if it does not free a string twice. -/
theorem readLine_rejected (hc : line.head? ≠ some 0x23) (hlen : (lineTokens line).length ≠ 4) :
    6 ≤ (lineTokens line).length ∧ t.readLine h line = .error .doubleFree ∨
    (lineTokens line).length ≤ 5 ∧ ∃ strings,
      t.readLine h line = .ok { t with strings := strings } ∧ t.strings.next ∈ strings.live := by
  have hread : t.readTokens (strdup t.strings (cstr line)).text = _ := readTokens_eq t line
  rw [readLine, if_neg hc]
  rcases foldlM_rejected (lineTokens_ne_nil line) hlen t.strings.acquire with
    ⟨hsix, herr⟩ | ⟨hfive, v, hv, hnum, hlive⟩
  · refine .inl ⟨hsix, ?_⟩
    simp only [hread, herr, bind, Except.bind]
  · refine .inr ⟨hfive, v.strings, ?_, hlive _ (by simp)⟩
    simp only [hread, hv, bind, Except.bind]
    split
    · rw [if_pos hnum]
      rfl
    · rfl

/-- What a line that is read without an error does to the table. -/
theorem readLine_cases {t' : ClientTable} (hread : t.readLine h line = .ok t') :
    line.head? = some 0x23 ∧ t = t' ∨
    (IsClient line ∧ ∃ a b c d, t.push h a b c d = t') ∨
    (line.head? ≠ some 0x23 ∧ (lineTokens line).length ≠ 4 ∧
      ∃ strings, { t with strings := strings } = t' ∧ t.strings.next ∈ strings.live) := by
  by_cases hc : line.head? = some 0x23
  · rw [readLine_comment hc] at hread
    exact .inl ⟨hc, Except.ok.inj hread⟩
  by_cases hlen : (lineTokens line).length = 4
  · obtain ⟨a, b, c, d, htoks⟩ := List.length_eq_four.mp hlen
    rw [readLine_four hc htoks] at hread
    exact .inr (.inl ⟨⟨hc, hlen⟩, a, b, c, d, Except.ok.inj hread⟩)
  · rcases readLine_rejected (h := h) hc hlen with ⟨-, herr⟩ | ⟨-, strings, hok, hlive⟩
    · rw [herr] at hread
      cases hread
    · rw [hok] at hread
      exact .inr (.inr ⟨hc, hlen, strings, Except.ok.inj hread, hlive⟩)

end Line

/-! The table and the list of clients that is read. -/

end ClientTable

/-- What the rest of the program sees of an entry. -/
def Entry.meta (e : Entry) : Meta where
  fd := e.fd
  state := e.state
  cls := e.cls.text
  host := e.host.text
  port := e.port.text
  pw := some e.pw.text
  isBg := e.isBg
  currentMId := e.currentMId

namespace ClientTable

/-- The entries in use. -/
def entries (t : ClientTable) : List Entry := t.metas.toList.take t.count

@[simp] theorem length_entries (t : ClientTable) : t.entries.length = t.count := by
  simp [entries, t.count_le]

@[simp] theorem entries_start (metas : Vector Entry maxNumCtrlSocks) :
    (start metas).entries = [] := rfl

theorem entries_push (t : ClientTable) (h : t.count < maxNumCtrlSocks) (a b c d : Bytes) :
    (t.push h a b c d).entries = t.entries ++ [.ofTokens t.strings.acquire a b c d] := by
  have hlen : t.count < t.metas.toList.length := by simpa using h
  rw [entries, entries, push, Vector.toList_set, List.take_add_one,
    List.take_set_of_le (Nat.le_refl _), List.getElem?_set_self hlen]
  rfl

/-- The clients are those that `tcClientFileRead` lists. -/
theorem readLines_clients (lines : List Bytes) (t : ClientTable) :
    (fun t' => t'.entries.map Entry.meta) <$> readLines lines t =
      (fun xs => t.entries.map Entry.meta ++ xs) <$>
        readClients (maxNumCtrlSocks - t.count) lines := by
  induction lines generalizing t with
  | nil => simp [readLines, readClients_nil]
  | cons line lines ih =>
    rw [readLines]
    by_cases h : t.count < maxNumCtrlSocks
    · obtain ⟨room, hroom⟩ : ∃ room, maxNumCtrlSocks - t.count = room + 1 :=
        ⟨maxNumCtrlSocks - t.count - 1, by omega⟩
      have hpush : maxNumCtrlSocks - (t.count + 1) = room := by omega
      rw [dif_pos h, hroom]
      by_cases hc : line.head? = some 0x23
      · rw [readLine_comment hc, readClients_comment hc, ← hroom]
        exact ih t
      by_cases hlen : (lineTokens line).length = 4
      · obtain ⟨a, b, c, d, htoks⟩ := List.length_eq_four.mp hlen
        have hrest := ih (t.push h a b c d)
        have hentry : (Entry.ofTokens t.strings.acquire a b c d).meta =
            ⟨-1, .invalid, a, b, c, some d, (bytes "bg").isPrefixOf a, 0⟩ := rfl
        have hcount : maxNumCtrlSocks - (t.push h a b c d).count = room := hpush
        rw [hcount, entries_push, List.map_append, List.map_singleton, hentry] at hrest
        rw [readLine_four hc htoks, readClients_four hc htoks]
        apply Eq.trans hrest
        cases readClients room lines <;> simp [bind, Except.bind, pure, Except.pure]
      · rw [readClients_rejected hc hlen]
        rcases readLine_rejected (h := h) hc hlen with ⟨hsix, herr⟩ | ⟨hfive, strings, hok, -⟩
        · rw [herr, if_pos hsix]
          rfl
        · rw [hok, if_neg (by omega), ← hroom]
          exact ih { t with strings := strings }
    · have hroom : maxNumCtrlSocks - t.count = 0 := by omega
      rw [dif_neg h, hroom]
      simp [readClients]

/-- Whatever is in the array at first, `tc_client_file_read` puts the clients of `tcClientFileRead`
into it. -/
theorem read_clients (metas : Vector Entry maxNumCtrlSocks) (content : Bytes) :
    (fun t => t.entries.map Entry.meta) <$> read metas content = tcClientFileRead content := by
  apply (readLines_clients (getlines content) (start metas)).trans
  rw [entries_start, start, Nat.sub_zero, tcClientFileRead]
  cases readClients maxNumCtrlSocks (getlines content) <;> rfl

end ClientTable

end Flashflow
