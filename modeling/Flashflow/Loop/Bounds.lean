import Flashflow.Loop.Background
import Flashflow.Loop.Writes

/-! The size of the fixed arrays. No statement of the main loop compares an index with it: that it
is enough rests on the number of clients, and on a client for each known measurement. -/
namespace Flashflow
open Sched Program Arrays Outcome

section
variable {table : Msms} {m : UInt32} {i : ℕ} {ids : List UInt32}

/-! How many measurements are known. -/

/-- Each of the measurements has a client, and no client has two. -/
theorem length_le_of_owners {metas : List Meta} (hnd : ids.Nodup)
    (hown : ∀ m ∈ ids, ∃ x ∈ metas, x.currentMId = m) : ids.length ≤ metas.length := by
  have hsub : ids ⊆ metas.map Meta.currentMId := fun m hm => List.mem_map.mpr (hown m hm)
  simpa using (hnd.subperm hsub).length_le

theorem Staffed.owner {s : Coord} (h : Staffed s m) : ∃ x ∈ s.metas, x.currentMId = m := by
  obtain ⟨e, -, hired⟩ := h.hired
  exact exists_owner hired

theorem Quiet.known_le {s : Coord} (h : Quiet table s) : s.known.length ≤ s.metas.length :=
  length_le_of_owners h.nodup fun m hm => (h.staffed m hm).owner

/-- A new measurement has claimed its clients before it is pushed. -/
theorem Hiring.known_lt {s : Coord} (h : Hiring table m [] s) :
    s.known.length < s.metas.length := by
  obtain ⟨e, -, hired⟩ := h.hired
  rw [List.map_nil, List.append_nil] at hired
  apply length_le_of_owners (List.nodup_cons.mpr ⟨h.fresh, h.rest.nodup⟩)
  intro i hi
  rcases List.mem_cons.mp hi with rfl | hi
  · exact exists_owner hired
  · have hne : i ≠ m := fun heq => h.fresh (heq ▸ hi)
    exact (h.rest.staffed i hi hne).owner

/-- As long as there are not more known measurements than clients, all writes are to indices of
clients. -/
theorem Point.Writes.lt {d : Config} {a : FixedArray} (h : d.1.Writes d.2.co a i)
    (hd : d.1.Holds table d.2.co) (hknown : d.2.co.known.length ≤ d.2.co.metas.length) :
    i < d.2.co.metas.length := by
  obtain ⟨point, s⟩ := d
  cases h with
  | claim hx | greet hx | tell hx | start hx | fail hx | finish hx =>
    exact (List.getElem?_eq_some_iff.mp hx).1
  | push => exact Hiring.known_lt hd
  | remove hi =>
    obtain ⟨hlt, -⟩ := List.findIdx?_eq_some_iff_getElem.mp hi
    exact Nat.lt_of_lt_of_le hlt hknown
  | @retire i m _ =>
    have hturn : InTurn table i m 3 s.co := hd
    obtain ⟨hlt, -⟩ := List.getElem?_eq_some_iff.mp hturn.index
    exact Nat.lt_of_lt_of_le hlt hknown
  | register hx =>
    obtain ⟨hlt, -⟩ := List.getElem?_eq_some_iff.mp hx
    exact Nat.lt_of_le_of_lt (FdSets.length_before_le _ _ _) hlt
  | handle hc =>
    obtain ⟨hlt, -⟩ := List.findIdx?_eq_some_iff_getElem.mp hc
    exact hlt

theorem Move.known_le {d d' : Config} (h : Move d d') (hd : d.1.Holds table d.2.co)
    (hknown : d.2.co.known.length ≤ d.2.co.metas.length) :
    d'.2.co.known.length ≤ d'.2.co.metas.length := by
  by_contra hmore
  have hlen : d'.2.co.metas.length = d.2.co.metas.length := length_of_extends h.extends
  -- the element behind those of the clients is new, so it has been written
  have hlt : d.2.co.metas.length < d'.2.co.known.length := by omega
  have hnone : d.2.co.known[d.2.co.metas.length]? = none := List.getElem?_eq_none hknown
  have hsome := List.getElem?_eq_getElem hlt
  have hwritten : d.1.Writes d.2.co .knownMIds d.2.co.metas.length := by
    by_contra hnot
    have hsame := (h.changesOnly hd).known _ hlt hnot
    rw [hsome, hnone] at hsame
    cases hsame
  exact Nat.lt_irrefl _ (hwritten.lt hd hknown)

theorem Walk.known_le {d d' : Config} (h : Walk d d') (hd : d.1.Holds table d.2.co)
    (hknown : d.2.co.known.length ≤ d.2.co.metas.length) :
    d'.2.co.known.length ≤ d'.2.co.metas.length := by
  induction h with
  | refl => exact hknown
  | tail hw hm ih => exact hm.known_le (Walk.holds hw hd) ih

/-- Nowhere are there more known measurements than clients. -/
theorem Reach.known_le {r : Round} {d : Config} (h : Reach r d) :
    d.2.co.known.length ≤ d.2.co.metas.length := by
  obtain ⟨s, hs, hwalk⟩ := h
  obtain ⟨ms, table, -, hq⟩ := hs.quiet
  exact Walk.known_le hwalk hq hq.known_le

theorem Reach.metas_le {r : Round} {d : Config} (h : Reach r d) :
    d.2.co.metas.length ≤ maxNumCtrlSocks := by
  obtain ⟨s, hs, hwalk⟩ := h
  obtain ⟨xs, hxs, hwho⟩ := hs.who
  have hlen : s.co.metas.length = xs.length := by simpa using congrArg List.length hwho
  rw [length_of_extends hwalk.extends, hlen]
  exact readClients_length hxs

/-! All writes. -/

theorem ClientTable.Stores.lt {lines : List Bytes} {t : ClientTable} {i : ℕ}
    (h : Stores lines t i) : i < maxNumCtrlSocks := by
  induction h with
  | here hroom _ => exact hroom
  | later _ _ _ ih => exact ih

/-- In every run all indices written are inside of the arrays. -/
theorem written_in_bounds {r : Round} {a : FixedArray} (h : r.Writes a i) :
    i < maxNumCtrlSocks := by
  cases h with
  | read h => exact h.lt
  | loop hc h =>
    obtain ⟨ms, table, -, hd⟩ := hc.holds
    exact Nat.lt_of_lt_of_le (h.lt hd hc.known_le) hc.metas_le

/-- In the second turn both clients are told to connect, and the descriptor of the second one is put
behind that of the first one. -/
theorem written_in_bounds_twoClients :
    twoClients.Writes .connectingFds 1 ∧ 1 < maxNumCtrlSocks := by
  obtain ⟨s, hreach, hwaits, hfirst⟩ : ∃ s, Reach twoClients (.poll, s) ∧
      s.co.metas[1]?.any (fun x => x.state = Phase.connect.waits) = true ∧
      ((FdSets.before s.co.metas 1).waiting .connect).length = 1 := by
    have hx := exec_of_fst (x := turnToPoll) (s := twoClientsStart.after 1) (r := .ok true)
      (by decide +kernel)
    exact ⟨_, AtHead.reach_poll (twoClients_atHead (n := 1) (by decide)) (by decide +kernel) hx,
      by decide +kernel, by decide +kernel⟩
  obtain ⟨x, hget, hst⟩ := (Option.any_eq_true _ _).mp hwaits
  have hwrite := Point.Writes.register hget (of_decide_eq_true hst)
  rw [hfirst] at hwrite
  have hw : twoClients.Writes .connectingFds 1 := .loop hreach hwrite
  exact ⟨hw, written_in_bounds hw⟩

end
end Flashflow
