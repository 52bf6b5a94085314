import Flashflow.Loop.Frame

/-! Background clients. The schedule reader has a rule for the class `bg`, and the client reader
takes every class that begins with `bg` for a background class. -/
namespace Flashflow
open Sched Program Outcome

/-- What the client reader takes for a background class. -/
def BgClass (cls : Bytes) : Prop := bytes "bg" <+: cls

instance (cls : Bytes) : Decidable (BgClass cls) := inferInstanceAs (Decidable (bytes "bg" <+: cls))

theorem readClients_isBg {room : ℕ} {lines : List Bytes} {xs : List Meta}
    (h : readClients room lines = .ok xs) : ∀ x ∈ xs, x.isBg = true → BgClass x.cls := by
  refine readClients_invariant (motive := fun _ xs => ∀ x ∈ xs, x.isBg = true → BgClass x.cls)
    (by simp) (fun _ _ cls _ _ _ xs _ hxs => ?_) h
  exact List.forall_mem_cons.mpr ⟨fun hbg => List.isPrefixOf_iff_prefix.mp hbg, hxs⟩

variable {r : Round} {s : Loop}

/-- The clients at a head are those of the client file. -/
theorem AtHead.who (h : AtHead r s) : ∃ xs, tcClientFileRead r.clientFile = .ok xs ∧
    s.co.metas.map Meta.who = xs.map Meta.who := by
  have hstart : ∀ {r : Round} {s : Loop}, r.start = .ok (some s) →
      tcClientFileRead r.clientFile = .ok s.co.metas := by
    intro r s hs
    simp only [Round.start, bind_eq_ok] at hs
    obtain ⟨metas, hmetas, hs⟩ := hs
    split at hs
    · cases hs
    simp only [bind_eq_ok] at hs
    obtain ⟨⟨msms, n⟩, -, hs⟩ := hs
    split at hs
    · cases hs
    obtain rfl := Option.some.inj (pure_eq_ok.mp hs)
    exact hmetas
  induction h with
  | first _ hs => exact ⟨_, hstart hs, rfl⟩
  | again _ _ _ hs _ => exact ⟨_, hstart hs, rfl⟩
  | @turn _ s s' _ hs ih =>
    obtain ⟨xs, hxs, hwho⟩ := ih
    have hext := keeps_mainLoopTurn s
    rw [hs.2] at hext
    exact ⟨xs, hxs, hext.who.trans hwho⟩

/-- If the assertion of `tc_tell_connect` fails, there is a host with other than one connection in
a class that begins with `bg`. -/
theorem AtHead.wrong_conns (h : AtHead r s) {xs : List Meta}
    (hxs : tcClientFileRead r.clientFile = .ok xs) {ms : List Measurement}
    (hms : parseLines r.lines = .ok ms) (habort : (exec mainLoopTurn s).1 = .error .assertBgConns) :
    ∃ x ∈ xs, BgClass x.cls ∧ ∃ m ∈ ms, ∃ host ∈ m.hosts, utf8 host.cls = x.cls ∧
      host.conns ≠ 1 := by
  obtain ⟨ms', table, hl, hq⟩ := h.quiet
  obtain rfl : ms' = ms := Except.ok.inj (hl.parsed.symm.trans hms)
  have hab : Aborted table .assertBgConns (exec mainLoopTurn s).2 :=
    wp_aborts (wp_mainLoopTurn hq) (Prod.ext habort rfl)
  obtain ⟨x, hx, hbg, m, hm, hst, host, hhost, hcls, hconns⟩ := hab.background rfl
  -- the client comes from the client file
  obtain ⟨xs', hxs', hwho⟩ := h.who
  obtain rfl : xs' = xs := Except.ok.inj (hxs'.symm.trans hxs)
  have hmem : x.who ∈ xs'.map Meta.who := by
    rw [← hwho, ← (keeps_mainLoopTurn s).who]
    exact List.mem_map_of_mem hx
  obtain ⟨y, hy, hyx⟩ := List.mem_map.mp hmem
  simp only [Meta.who, Prod.mk.injEq] at hyx
  obtain ⟨hycls, -, -, -, hybg⟩ := hyx
  -- and the host from the schedule
  obtain ⟨m₀, hm₀, -, hplan, -⟩ := hl.tracks.origin hm hst
  have hhost₀ : host ∈ m₀.hosts := hosts_of_plan hplan ▸ hhost
  have hclass := readClients_isBg hxs y hy (hybg.trans hbg)
  exact ⟨y, hy, hclass, m₀, hm₀, host, hhost₀, hcls.trans hycls.symm, hconns⟩

/-- The assertion of `tc_tell_connect` holds in every run in which a host has one connection
whenever it shares a class that begins with `bg` with a client. -/
theorem background_one_conn (h : AtHead r s) {xs : List Meta}
    (hxs : tcClientFileRead r.clientFile = .ok xs) {ms : List Measurement}
    (hms : parseLines r.lines = .ok ms)
    (hone : ∀ x ∈ xs, BgClass x.cls → ∀ m ∈ ms, ∀ host ∈ m.hosts, utf8 host.cls = x.cls →
      host.conns = 1) : (exec mainLoopTurn s).1 ≠ .error .assertBgConns := by
  intro habort
  obtain ⟨x, hx, hbg, m, hm, host, hhost, hcls, hconns⟩ := h.wrong_conns hxs hms habort
  exact hconns (hone x hx hbg m hm host hhost hcls)

/-! A round with a client and a host of a class that begins with `bg`. -/

def bgRound : Round :=
  { twoClients with
    clientFile := bytes "bgx 10.0.0.1 9051 pw\n"
    lines := ["1 AA 30 bgx 100 2".toList] }

def bgStart : Loop where
  os := twoClients.os
  co := {
    metas := [
      ⟨-1, .invalid, bytes "bgx", bytes "10.0.0.1", bytes "9051", some (bytes "pw"), true, 0⟩]
    openFds := [0, 1, 2]
    msms := ⟨[⟨1, "AA".toList, 30, .waiting, [⟨"bgx".toList, 100, 2⟩], [], [], 0⟩], by decide⟩
    known := []
    loopsWithoutProgress := 0
    countSuccess := 0
    countFailure := 0
    strays := []
    trace := [] }

/-- Both files are accepted, and the second turn tells the background client to use two
connections. -/
theorem background_two_conns : ∃ s, AtHead bgRound s ∧
    (exec mainLoopTurn s).1 = .error .assertBgConns := by
  have hturn : ∀ i < 1, schedFinished (bgStart.after i).co.msms = false ∧
      (exec mainLoopTurn (bgStart.after i)).1 = .ok true := by
    decide +kernel
  exact ⟨bgStart.after 1, (AtHead.first rfl rfl).after hturn, by decide +kernel⟩

/-- The same client, and a host with one connection. -/
def bgOneConn : Round := { bgRound with lines := ["1 AA 30 bgx 100 1".toList] }

def bgOneConnSchedule : List Measurement :=
  [⟨1, "AA".toList, 30, .waiting, [⟨"bgx".toList, 100, 1⟩], [], [], 0⟩]

def bgOneConnStart : Loop :=
  { bgStart with co := { bgStart.co with msms := ⟨bgOneConnSchedule, by decide⟩ } }

theorem background_one_conn_bgx :
    (∃ x ∈ (bgOneConnStart.after 1).co.metas, x.isBg = true ∧ x.currentMId = 1) ∧
    .sent 0 1 .connect ∈ (exec mainLoopTurn (bgOneConnStart.after 1)).2.co.trace ∧
    (exec mainLoopTurn (bgOneConnStart.after 1)).1 ≠ .error .assertBgConns := by
  have hturn : ∀ i < 1, schedFinished (bgOneConnStart.after i).co.msms = false ∧
      (exec mainLoopTurn (bgOneConnStart.after i)).1 = .ok true := by
    decide +kernel
  have hhead : AtHead bgOneConn (bgOneConnStart.after 1) := (AtHead.first rfl rfl).after hturn
  have hparsed : parseLines bgOneConn.lines = .ok bgOneConnSchedule := rfl
  have hclients : tcClientFileRead bgOneConn.clientFile = .ok bgStart.co.metas := rfl
  have hone : ∀ m ∈ bgOneConnSchedule, ∀ host ∈ m.hosts, host.conns = 1 := by decide
  refine ⟨by decide +kernel, by decide +kernel, ?_⟩
  exact background_one_conn hhead hclients hparsed fun _ _ _ m hm host hhost _ =>
    hone m hm host hhost

end Flashflow
