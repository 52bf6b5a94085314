import Flashflow.Library.Allocation
import Flashflow.Loop.Rounds

/-! `find_and_connect_metas` when it is fixed which clients accept a connection: it serves the hosts
of the measurement from the idle clients, in the order of the array. -/
namespace Flashflow
open Sched Program Arrays Allocation Outcome

/-- `socket`, `getaddrinfo` and `connect` all succeed. -/
def Answer.accepts (a : Answer) : Bool := a.socket.isSome && a.resolved && a.connected

/-- The idle clients of the class among the first `n`. -/
def idleAmong (metas : List Meta) (cls : Bytes) (n : ℕ) : List ℕ :=
  (List.range n).filter fun i => metas[i]?.any fun x => x.cls = cls ∧ x.currentMId = 0

/-- The idle clients of each class, in the order of the array. -/
def idleClients (metas : List Meta) : Offers Bytes ℕ := fun cls => idleAmong metas cls metas.length

/-- The outside world after `n` answers. -/
def Os.after (os : Os) (n : ℕ) : Os := { os with tick := os.tick + n }

/-- The connections to the clients `tried`, one after the other, are answered as `accepts` says. -/
def Answered (accepts : ℕ → Bool) (os : Os) (tried : List ℕ) : Prop :=
  ∀ k c, tried[k]? = some c → (os.script (os.tick + k)).accepts = accepts c

/-- The classes a measurement asks for. -/
def Sched.Measurement.classes (e : Measurement) : List Bytes := e.hosts.map fun h => utf8 h.cls

variable {s : Loop} {m : UInt32} {c : ℕ} {x : Meta} {accepts : ℕ → Bool} {metas : List Meta}
  {cls : Bytes} {E : Abort → Loop → Prop}

theorem mem_idleClients : c ∈ idleClients metas cls ↔
    ∃ x, metas[c]? = some x ∧ x.cls = cls ∧ x.currentMId = 0 := by
  simp only [idleClients, idleAmong, List.mem_filter, List.mem_range, Option.any_eq_true,
    decide_eq_true_eq]
  constructor
  · exact And.right
  · rintro ⟨x, hx, h⟩
    exact ⟨(List.getElem?_eq_some_iff.mp hx).1, x, hx, h⟩

theorem idleClients_distinct (metas : List Meta) : (idleClients metas).Distinct where
  nodup _ := List.nodup_range.filter _
  label hc hc' := by
    obtain ⟨x, hx, rfl, -⟩ := mem_idleClients.mp hc
    obtain ⟨y, hy, rfl, -⟩ := mem_idleClients.mp hc'
    rw [hx] at hy
    rw [Option.some.inj hy]

/-- A client that has been claimed is not idle any more. -/
theorem idleClients_set (hc : c < metas.length) {x' : Meta} (hcur : x'.currentMId ≠ 0) :
    idleClients (metas.set c x') = (idleClients metas).without c := by
  funext cls
  simp only [idleClients, idleAmong, Offers.without, List.length_set, List.filter_filter]
  apply List.filter_congr
  intro i _
  by_cases hi : i = c
  · subst hi
    simp [hc, hcur]
  · simp [Ne.symm hi, hi]

/-! The answers. -/

theorem Answered.left {os : Os} {a b : List ℕ} (h : Answered accepts os (a ++ b)) :
    Answered accepts os a := by
  intro k c hk
  apply h k c
  rw [List.getElem?_append_left (List.getElem?_eq_some_iff.mp hk).1, hk]

theorem Answered.right {os : Os} {a b : List ℕ} (h : Answered accepts os (a ++ b)) :
    Answered accepts (os.after a.length) b := by
  intro k c hk
  have hab : (a ++ b)[a.length + k]? = some c := by
    rw [List.getElem?_append_right (Nat.le_add_right _ _), Nat.add_sub_cancel_left, hk]
  have hc := h (a.length + k) c hab
  rwa [← Nat.add_assoc] at hc

/-! One request. -/

theorem idleAmong_succ {i : ℕ} (hx : metas[i]? = some x) (cls : Bytes) :
    idleAmong metas cls (i + 1) =
      idleAmong metas cls i ++ if x.cls = cls ∧ x.currentMId = 0 then [i] else [] := by
  rw [idleAmong, List.range_succ, List.filter_append, List.filter_singleton, hx, Option.any_some]
  by_cases hfree : x.cls = cls ∧ x.currentMId = 0 <;> simp [hfree, idleAmong]

theorem idleAmong_prefix {i : ℕ} (hi : i ≤ metas.length) (cls : Bytes) :
    idleAmong metas cls i <+: idleClients metas cls := by
  obtain ⟨k, hk⟩ := Nat.exists_eq_add_of_le hi
  rw [idleClients, hk, idleAmong, idleAmong, List.range_add]
  exact (List.prefix_append _ _).filter _

/-- `tc_make_socket` on an idle client succeeds if and only if it is accepted. -/
theorem wp_makeSocket_accepts (hx : s.co.metas[c]? = some x) (hst : x.state = .invalid) :
    wp (makeSocket c) (fun ret t => t.os = s.os.after 1 ∧ ∃ fds,
      if (s.os.script s.os.tick).accepts then ∃ n : ℕ, 0 ≤ ret ∧ t.co = { s.co with
        metas := s.co.metas.set c { x with fd := n, state := .connected }, openFds := fds }
      else ret < 0 ∧ t.co = { s.co with openFds := fds }) E s := by
  simp only [makeSocket, answer, wp_bind, wp_getState, wp_modifyState, wp_pure, wp_co, wp_metaAt,
    hx, Answer.accepts]
  generalize s.os.script s.os.tick = a
  by_cases hok : (a.socket.isSome && a.resolved && a.connected) = true
  · simp only [Bool.and_eq_true, Option.isSome_iff_exists] at hok
    obtain ⟨⟨⟨n, hn⟩, hres⟩, hcon⟩ := hok
    simp only [hn, hres, hcon, Option.map_some, tcMakeSocket_accepted hst, fromExcept_ok, wp_pure,
      wp_modifyCo, wp_setMeta, wp_bind]
    exact ⟨rfl, _, _, Int.natCast_nonneg _, rfl⟩
  · have hno := Bool.eq_false_iff.mpr hok
    have hmap : ((a.socket.map (freshFd s.co.openFds)).isSome && a.resolved && a.connected) =
        false := by
      rwa [Option.isSome_map]
    simp only [hno, tcMakeSocket_refused hst hmap, fromExcept_ok, wp_pure, wp_modifyCo, wp_setMeta,
      wp_bind, set_same hx]
    exact ⟨rfl, _, by decide, rfl⟩

/-- The clients tried for the class have answered; the one that accepts is connected. -/
structure Searched (accepts : ℕ → Bool) (cls : Bytes) (s : Loop) (r : Option ℕ) (t : Loop) :
    Prop where
  found : r = (idleClients s.co.metas cls).find? accepts
  os : t.os = s.os.after (tried accepts (idleClients s.co.metas cls)).length
  co : ∃ fds, match r with
    | none => t.co = { s.co with openFds := fds }
    | some c => ∃ (x : Meta) (n : ℕ), s.co.metas[c]? = some x ∧ t.co = { s.co with
        metas := s.co.metas.set c { x with fd := n, state := .connected }, openFds := fds }

/-- The idle clients of the class in front of index `i` have been tried, and all have refused. -/
structure Refused (accepts : ℕ → Bool) (cls : Bytes) (s : Loop) (i : ℕ) (t : Loop) : Prop where
  refuse : ∀ j ∈ idleAmong s.co.metas cls i, accepts j = false
  os : t.os = s.os.after (idleAmong s.co.metas cls i).length
  co : ∃ fds, t.co = { s.co with openFds := fds }

/-- A client that is not tried. -/
theorem Refused.skip {i : ℕ} {t : Loop} (h : Refused accepts cls s i t)
    (hx : s.co.metas[i]? = some x) (hbusy : ¬ (x.cls = cls ∧ x.currentMId = 0)) :
    Refused accepts cls s (i + 1) t := by
  have hsucc := idleAmong_succ hx cls
  rw [if_neg hbusy, List.append_nil] at hsucc
  exact ⟨hsucc ▸ h.refuse, hsucc ▸ h.os, h.co⟩

/-- A client that is tried and refuses. -/
theorem Refused.next {i : ℕ} {t u : Loop} (h : Refused accepts cls s i t)
    (hx : s.co.metas[i]? = some x) (hfree : x.cls = cls ∧ x.currentMId = 0)
    (hno : accepts i = false) (hos : u.os = t.os.after 1)
    (hco : ∃ fds, u.co = { t.co with openFds := fds }) : Refused accepts cls s (i + 1) u := by
  have hsucc := idleAmong_succ hx cls
  rw [if_pos hfree] at hsucc
  obtain ⟨fds, hfds⟩ := h.co
  obtain ⟨fds', hfds'⟩ := hco
  refine ⟨?_, ?_, fds', by rw [hfds', hfds]⟩
  · rw [hsucc]
    exact List.forall_mem_append.mpr ⟨h.refuse, by simpa using hno⟩
  · rw [hos, h.os, hsucc]
    simp [Os.after, Nat.add_assoc]

/-- The idle clients from a free one on. -/
theorem Refused.split {i : ℕ} {t : Loop} (h : Refused accepts cls s i t)
    (hx : s.co.metas[i]? = some x) (hfree : x.cls = cls ∧ x.currentMId = 0) : ∃ rest,
      idleClients s.co.metas cls = idleAmong s.co.metas cls i ++ i :: rest ∧
      tried accepts (idleClients s.co.metas cls) =
        idleAmong s.co.metas cls i ++ tried accepts (i :: rest) := by
  obtain ⟨hlt, -⟩ := List.getElem?_eq_some_iff.mp hx
  obtain ⟨rest, hrest⟩ := idleAmong_prefix (Nat.succ_le_of_lt hlt) cls
  rw [idleAmong_succ hx cls, if_pos hfree, List.append_assoc, List.singleton_append] at hrest
  refine ⟨rest, hrest.symm, ?_⟩
  rw [← tried_append h.refuse, hrest]

theorem wp_nextAvailable_accepts (hidle : ∀ x ∈ s.co.metas, x.currentMId = 0 → x.Idle)
    (hans : Answered accepts s.os (tried accepts (idleClients s.co.metas cls))) :
    wp (nextAvailable cls) (Searched accepts cls s) E s := by
  simp only [nextAvailable, wp_bind, wp_numMetas]
  refine wp_conseq (wp_forRange (fun i _ t => Refused accepts cls s i t)
    (fun c t => Searched accepts cls s (some c) t) ?_ ⟨by simp [idleAmong], rfl, _, rfl⟩) ?_
  · rintro i hi ⟨⟩ t h
    have hx₀ : s.co.metas[i]? = some s.co.metas[i] := List.getElem?_eq_getElem hi
    obtain ⟨fds, hco⟩ := h.co
    have hx : t.co.metas[i]? = some s.co.metas[i] := by rw [hco, hx₀]
    simp only [wp_bind, wp_metaAt, hx]
    by_cases hfree : s.co.metas[i].cls = cls ∧ s.co.metas[i].currentMId = 0
    · obtain ⟨rest, hrest, htried⟩ := h.split hx₀ hfree
      rw [if_pos hfree, wp_bind]
      -- the answer to this attempt is the next one in the script
      have hans' : (t.os.script t.os.tick).accepts = accepts i := by
        rw [h.os]
        apply hans _ i
        rw [htried, List.getElem?_append_right (Nat.le_refl _), tried]
        split <;> simp
      have hinv := (hidle _ (List.getElem_mem hi) hfree.2).2.1
      apply wp_conseq (wp_makeSocket_accepts hx hinv)
      rintro ret u ⟨huos, fds', hret⟩
      rw [hans'] at hret
      by_cases hacc : accepts i = true
      · rw [if_pos hacc] at hret
        obtain ⟨n, hpos, huco⟩ := hret
        rw [if_neg (by omega), wp_pure]
        refine ⟨?_, ?_, fds', s.co.metas[i], n, hx₀, ?_⟩
        · rw [hrest, List.find?_append, List.find?_eq_none.mpr (by simpa using h.refuse),
            Option.none_or, List.find?_cons_of_pos hacc]
        · rw [huos, h.os, htried, tried, if_pos hacc]
          simp [Os.after, Nat.add_assoc]
        · rw [huco, hco]
      · rw [if_neg hacc] at hret
        obtain ⟨hneg, huco⟩ := hret
        rw [if_pos hneg, wp_pure]
        exact h.next hx₀ hfree (Bool.eq_false_iff.mpr hacc) huos ⟨fds', huco⟩
    · rw [if_neg hfree, wp_pure]
      exact h.skip hx₀ hfree
  · rintro (⟨⟩ | c) t ht
    · obtain ⟨fds, hco⟩ := ht.co
      have hall := tried_append ht.refuse []
      rw [List.append_nil, tried, List.append_nil] at hall
      refine ⟨(List.find?_eq_none.mpr (by simpa [idleClients] using ht.refuse)).symm, ?_, fds, hco⟩
      rw [ht.os, idleClients, hall]
    · exact ht

/-! All requests. -/

/-- The clients `cs`, and no others, have been claimed for `m`. -/
structure ClaimedBy (m : UInt32) (cs : List ℕ) (metas metas' : List Meta) : Prop where
  claimed : ∀ c ∈ cs, ∃ (x : Meta) (n : ℕ), metas[c]? = some x ∧ metas'[c]? = some (x.claimed n m)
  others : ∀ c, c ∉ cs → metas'[c]? = metas[c]?

theorem ClaimedBy.cons {cs : List ℕ} {metas' : List Meta} {n : ℕ} (hx : metas[c]? = some x)
    (hc : c ∉ cs) (h : ClaimedBy m cs (metas.set c (x.claimed n m)) metas') :
    ClaimedBy m (c :: cs) metas metas' where
  claimed i hi := by
    obtain ⟨hlt, -⟩ := List.getElem?_eq_some_iff.mp hx
    by_cases hic : i = c
    · subst hic
      refine ⟨x, n, hx, ?_⟩
      rw [h.others i hc, List.getElem?_set_self hlt]
    · obtain ⟨y, k, hy, hy'⟩ := h.claimed i ((List.mem_cons.mp hi).resolve_left hic)
      rw [List.getElem?_set_ne (Ne.symm hic)] at hy
      exact ⟨y, k, hy, hy'⟩
  others i hi := by
    obtain ⟨hic, hi⟩ := not_or.mp (mt List.mem_cons.mpr hi)
    rw [h.others i hi, List.getElem?_set_ne (Ne.symm hic)]

/-- The clients tried for the classes `wanted` have answered; if every class was served, the clients
that serve them are claimed. -/
structure Claimed (accepts : ℕ → Bool) (m : UInt32) (wanted : List Bytes) (metas : List Meta)
    (os : Os) (ok : Bool) (t : Loop) : Prop where
  os : t.os = os.after (attempts accepts (idleClients metas) wanted).length
  result : match served accepts (idleClients metas) wanted with
    | none => ok = false
    | some cs => ok = true ∧ ClaimedBy m cs metas t.co.metas

/-- A client has been found for the first class, and the others have been served without it. -/
theorem Claimed.cons {cls : Bytes} {wanted : List Bytes} {os : Os} {ok : Bool} {n : ℕ} {t : Loop}
    (hm : m ≠ 0) (hfound : (idleClients metas cls).find? accepts = some c)
    (hx : metas[c]? = some x)
    (h : Claimed accepts m wanted (metas.set c (x.claimed n m))
      (os.after (tried accepts (idleClients metas cls)).length) ok t) :
    Claimed accepts m (cls :: wanted) metas os ok t := by
  obtain ⟨hlt, -⟩ := List.getElem?_eq_some_iff.mp hx
  obtain ⟨hos, hres⟩ := h
  rw [idleClients_set hlt hm] at hos hres
  refine ⟨?_, ?_⟩
  · rw [hos, attempts, hfound]
    simp [Os.after, Nat.add_assoc]
  · rw [served, hfound]
    simp only
    cases hs : served accepts ((idleClients metas).without c) wanted with
    | none => simpa [hs] using hres
    | some cs =>
      rw [hs] at hres
      obtain ⟨hok, hclaimed⟩ := hres
      refine ⟨hok, .cons hx (fun hc => ?_) hclaimed⟩
      -- `c` is not offered any more
      obtain ⟨_, -, hoff, -⟩ := Arrays.exists_left (served_spec hs).2 hc
      exact (mem_without.mp hoff).2 rfl

/-- The hosts are served in their order by clients that accept, until one finds no client. -/
theorem wp_claimAll_accepts (hm : m ≠ 0) (hidle : ∀ x ∈ s.co.metas, x.currentMId = 0 → x.Idle)
    (wanted : List Slot) (hans : Answered accepts s.os
      (attempts accepts (idleClients s.co.metas) (wanted.map Slot.cls))) :
    wp (claimAll m wanted) (Claimed accepts m (wanted.map Slot.cls) s.co.metas s.os) E s := by
  induction wanted generalizing s with
  | nil => exact ⟨rfl, rfl, fun c hc => absurd hc List.not_mem_nil, fun _ _ => rfl⟩
  | cons slot rest ih =>
    rw [List.map_cons, attempts] at hans
    rw [claimAll, wp_bind]
    apply wp_conseq (wp_nextAvailable_accepts hidle hans.left)
    rintro r t ⟨hfound, hos, fds, hco⟩
    rw [← hfound] at hans
    cases r with
    | none =>
      rw [wp_pure]
      refine ⟨?_, ?_⟩
      · rw [hos, List.map_cons, attempts, ← hfound, List.append_nil]
      · rw [List.map_cons, served, ← hfound]
    | some c =>
      obtain ⟨x, n, hx, hco⟩ := hco
      obtain ⟨hlt, -⟩ := List.getElem?_eq_some_iff.mp hx
      have hget : t.co.metas[c]? = some { x with fd := (n : ℕ), state := .connected } := by
        rw [hco]
        simp [hlt]
      simp only [wp_bind, wp_metaAt, hget, wp_setMeta, wp_record]
      have hset : t.co.metas.set c (x.claimed n m) = s.co.metas.set c (x.claimed n m) := by
        rw [hco]
        simp
      have hans' : Answered accepts t.os
          (attempts accepts (idleClients (t.co.metas.set c (x.claimed n m)))
            (rest.map Slot.cls)) := by
        rw [hset, idleClients_set hlt hm, hos]
        exact hans.right
      refine wp_conseq (ih ?_ hans') ?_
      · intro y hy hcur
        rcases mem_set (hset ▸ hy) with hy | rfl
        · exact hidle y hy hcur
        · exact absurd hcur hm
      · intro ok u hu
        have hu' : Claimed accepts m (rest.map Slot.cls) (t.co.metas.set c (x.claimed n m)) t.os ok
          u := hu
        rw [hset, hos] at hu'
        exact hu'.cons hm hfound.symm hx

/-- The classes of the clients that serve the requests. -/
theorem ClaimedBy.classes {metas' : List Meta} {wanted : List Bytes} {cs : List ℕ}
    (h : ClaimedBy m cs metas metas')
    (hserved : List.Forall₂ (fun cls c => c ∈ idleClients metas cls ∧ accepts c = true) wanted cs) :
    (cs.filterMap fun c => metas'[c]?.map Meta.cls) = wanted := by
  have hcls : ∀ c ∈ cs, ∀ cls, c ∈ idleClients metas cls →
      metas'[c]?.map Meta.cls = some cls := by
    intro c hc cls hidle
    obtain ⟨x, n, hx, hx'⟩ := h.claimed c hc
    obtain ⟨y, hy, rfl, -⟩ := mem_idleClients.mp hidle
    rw [hx] at hy
    rw [hx', ← Option.some.inj hy]
    rfl
  clear h
  induction hserved with
  | nil => rfl
  | cons hc _ ih =>
    rw [List.filterMap_cons, hcls _ List.mem_cons_self _ hc.1,
      ih fun c hc => hcls c (List.mem_cons_of_mem _ hc)]

theorem findAndConnectMetas_nul {e : Measurement} (he : s.co.msms.get? m = some e)
    (hnul : ¬ e.NulFree) :
    (exec (findAndConnectMetas m) s).1 = .error (.panic .interiorNul) := by
  have hwp : wp (findAndConnectMetas m) (fun _ _ => False)
      (fun p _ => p = .panic .interiorNul) s := by
    simp only [findAndConnectMetas, fillParams, wp_bind, wp_co]
    cases hfill : fillMsmParams m s.co.msms with
    | error p =>
      obtain ⟨rfl, -⟩ := fillMsmParams_error he hfill
      rfl
    | ok r => exact absurd (fillMsmParams_nulFree he hfill) hnul
  rcases hex : exec (findAndConnectMetas m) s with ⟨p | ok, t⟩
  · rw [wp_aborts hwp hex]
  · exact (wp_returns hwp hex).elim

/-- If no name of the measurement has a NUL inside, `find_and_connect_metas` succeeds if and only if
for every class there are as many idle clients that accept as there are hosts; then it has claimed
one client for each host. With such a name it never returns. -/
theorem allocation_spec {e : Measurement} (hidle : ∀ x ∈ s.co.metas, x.currentMId = 0 → x.Idle)
    (hm : m ≠ 0) (he : s.co.msms.get? m = some e) (hdur : e.dur ≠ 0) (hhosts : e.hosts ≠ [])
    (hans : Answered accepts s.os (attempts accepts (idleClients s.co.metas) e.classes)) :
    (¬ e.NulFree → (exec (findAndConnectMetas m) s).1 = .error (.panic .interiorNul)) ∧
    (e.NulFree → ∃ ok t, exec (findAndConnectMetas m) s = (.ok ok, t) ∧
      t.os = s.os.after (attempts accepts (idleClients s.co.metas) e.classes).length ∧
      (ok = true ↔ ∀ cls, e.classes.count cls ≤ (idleClients s.co.metas cls).countP accepts) ∧
      (ok = true → ∃ claimed : List ℕ, claimed.Nodup ∧
        (∀ c ∈ claimed, accepts c = true ∧ ∃ (x : Meta) (n : ℕ), s.co.metas[c]? = some x ∧
          x.Idle ∧ t.co.metas[c]? = some (x.claimed n m)) ∧
        (claimed.filterMap fun c => t.co.metas[c]?.map Meta.cls).Perm e.classes ∧
        ∀ c, c ∉ claimed → t.co.metas[c]? = s.co.metas[c]?)) := by
  refine ⟨fun hnul => ?_, fun hnul => wp_terminates ?_⟩
  · exact findAndConnectMetas_nul he hnul
  · have hslots : e.params.slots.map Slot.cls = e.classes := by
      simp [Measurement.params, Measurement.classes, Host.slot, Function.comp_def]
    simp only [findAndConnectMetas, fillParams, wp_bind, wp_co, fillMsmParams_eq he hnul,
      Except.mapError, fromExcept_ok, wp_pure]
    rw [if_neg (by simp [hdur, hhosts])]
    rw [← hslots] at hans ⊢
    apply wp_conseq (wp_claimAll_accepts hm hidle _ hans)
    rintro ok t ⟨hos, hres⟩
    refine ⟨hos, ?_⟩
    rw [← served_isSome_iff (idleClients_distinct _)]
    cases hs : served accepts (idleClients s.co.metas) (e.params.slots.map Slot.cls) with
    | none =>
      obtain rfl : ok = false := by simpa [hs] using hres
      simp
    | some cs =>
      rw [hs] at hres
      obtain ⟨rfl, hclaimed⟩ := hres
      obtain ⟨hnd, hall⟩ := served_spec hs
      refine ⟨by simp, fun _ => ⟨cs, hnd, fun c hc => ?_, ?_, hclaimed.others⟩⟩
      · obtain ⟨x, n, hx, hx'⟩ := hclaimed.claimed c hc
        obtain ⟨cls, -, hoff, hacc⟩ := Arrays.exists_left hall hc
        obtain ⟨y, hy, -, hcur⟩ := mem_idleClients.mp hoff
        rw [hx] at hy
        obtain rfl := Option.some.inj hy
        exact ⟨hacc, x, n, hx, hidle x (List.mem_of_getElem? hx) hcur, hx'⟩
      · rw [hclaimed.classes hall]

theorem twoClients_idle : ∀ x ∈ twoClientsStart.co.metas, x.currentMId = 0 → x.Idle := by
  simp only [twoClientsStart, List.forall_mem_cons]
  exact ⟨fun _ => ⟨rfl, rfl, rfl⟩, fun _ => ⟨rfl, rfl, rfl⟩, fun _ h => absurd h List.not_mem_nil⟩

theorem allocation_spec_twoClients : ∃ t : Loop, ∃ claimed : List ℕ,
    claimed.Nodup ∧ (∀ c ∈ claimed, ∃ (x : Meta) (n : ℕ), twoClientsStart.co.metas[c]? = some x ∧
      x.Idle ∧ t.co.metas[c]? = some (x.claimed n 1)) ∧
    (claimed.filterMap fun c => t.co.metas[c]?.map Meta.cls).Perm [bytes "m", bytes "n"] := by
  have hret : (exec (findAndConnectMetas 1) twoClientsStart).1 = .ok true := by decide +kernel
  obtain ⟨-, hspec⟩ := allocation_spec twoClients_idle (by decide)
    (rfl : twoClientsStart.co.msms.get? 1 = some _) (by decide) (by decide)
    (fun _ _ _ => rfl : Answered (fun _ => true) _ _)
  obtain ⟨ok, t, hex, -, -, hok⟩ := hspec (by unfold Measurement.NulFree; decide)
  rw [hex] at hret
  obtain ⟨claimed, hnd, hall, hperm, -⟩ := hok (by simpa using hret)
  exact ⟨t, claimed, hnd, fun c hc => (hall c hc).2, hperm⟩

def nulSchedule : List Measurement :=
  [⟨1, "A\x00".toList, 30, .waiting, [⟨"m".toList, 100, 1⟩], [], [], 0⟩]

def nulStart : Loop :=
  { twoClientsStart with co := { twoClientsStart.co with msms := ⟨nulSchedule, by decide⟩ } }

/-- The clients are idle, all of them accept and there are enough of every class, but the accepted
line has a fingerprint with a NUL inside. -/
theorem allocation_nul :
    parseLines ["1 A\x00 30 m 100 1".toList] = .ok nulStart.co.msms.entries ∧
    (∀ x ∈ nulStart.co.metas, x.currentMId = 0 → x.Idle) ∧
    (∃ e, nulStart.co.msms.get? 1 = some e ∧ e.dur ≠ 0 ∧ e.hosts ≠ [] ∧
      Answered (fun _ => true) nulStart.os (attempts (fun _ => true)
        (idleClients nulStart.co.metas) e.classes) ∧
      ∀ cls, e.classes.count cls ≤ (idleClients nulStart.co.metas cls).countP fun _ => true) ∧
    (exec (findAndConnectMetas 1) nulStart).1 = .error (.panic .interiorNul) := by
  refine ⟨rfl, twoClients_idle, ⟨_, rfl, by decide, by decide, fun _ _ _ => rfl, fun cls => ?_⟩, ?_⟩
  · by_cases hcls : cls = bytes "m"
    · subst hcls
      decide +kernel
    · have hnot : cls ∉ [bytes "m"] := mt List.mem_singleton.mp hcls
      exact (List.count_eq_zero_of_not_mem hnot).trans_le (Nat.zero_le _)
  · decide +kernel

end Flashflow
