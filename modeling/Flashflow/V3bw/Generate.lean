import Flashflow.Library.Iteration
import Flashflow.V3bw.Reader

/-! `v3bw.c` from the hash table on: the per-second sums of each relay and its bandwidth. -/
namespace Flashflow
open Iteration

/-- `NUM_MSMS_IN_MSM_INFO` -/
abbrev numMsmsInMsmInfo : ℕ := 60

/-- `SECS_REQUIRED` -/
def secsRequired : ℕ := 25

/-- `MIN_BW` -/
def minBw : Int := 20

/-- Addition of two `long`s. -/
def longAdd (a b : Int) : Except Abort Int :=
  if longMin ≤ a + b ∧ a + b ≤ longMax then .ok (a + b) else .error .signedOverflow

/-- Multiplication of two `long`s. -/
def longMul (a b : Int) : Except Abort Int :=
  if longMin ≤ a * b ∧ a * b ≤ longMax then .ok (a * b) else .error .signedOverflow

/-- `calc_median` -/
def calcMedian (array : List Int) : Int :=
  match array with
  | [] => 0
  | [a] => a
  | _ => (array.insertionSort (· ≤ ·)).getD (array.length / 2) 0

/-- `struct msm_info` -/
structure MsmInfo where
  fp : Bytes
  first : Int
  msms : Vector Int numMsmsInMsmInfo
  used : ℕ

def msmInfoInit (fp : Bytes) (first bw : Int) : MsmInfo where
  fp := fp
  first := first
  msms := (Vector.replicate numMsmsInMsmInfo 0).set 0 bw
  used := 1

def msmInfoAdd (m : MsmInfo) (ts bw : Int) : Except Abort MsmInfo := do
  if ts < m.first then pure m
  else do
    let stop ← longAdd m.first numMsmsInMsmInfo
    if ts ≥ stop then pure m
    else
      let offset := (ts - m.first).toNat
      if h : offset < numMsmsInMsmInfo then do
        let sum ← longAdd m.msms[offset] bw
        pure { m with msms := m.msms.set offset sum,
                      used := if offset ≥ m.used then offset + 1 else m.used }
      else .error .outOfBounds

/-- The hash table: one `msm_info` for each fingerprint. -/
structure MsmTable where
  entries : List MsmInfo
  nodup : (entries.map MsmInfo.fp).Nodup

namespace MsmTable

def empty : MsmTable := ⟨[], List.nodup_nil⟩

/-- `g_hash_table_lookup` -/
def lookup (ht : MsmTable) (fp : Bytes) : Option MsmInfo := ht.entries.find? (fun m => m.fp = fp)

/-- `g_hash_table_insert` of a new key. -/
def insert (ht : MsmTable) (m : MsmInfo) (h : ht.lookup m.fp = none) : MsmTable where
  entries := m :: ht.entries
  nodup := by
    refine List.nodup_cons.mpr ⟨fun hm => ?_, ht.nodup⟩
    obtain ⟨m', hm', hfp⟩ := List.mem_map.mp hm
    have hne := List.find?_eq_none.mp h m' hm'
    simp [hfp] at hne

/-- The entry with the fingerprint of `m` is changed into `m`. -/
def update (ht : MsmTable) (m : MsmInfo) : MsmTable where
  entries := ht.entries.map fun e => if e.fp = m.fp then m else e
  nodup := by
    have hfp : (ht.entries.map fun e => if e.fp = m.fp then m else e).map MsmInfo.fp =
        ht.entries.map MsmInfo.fp := by
      rw [List.map_map]
      refine List.map_congr_left fun e _ => ?_
      by_cases he : e.fp = m.fp <;> simp [he]
    rw [hfp]
    exact ht.nodup

variable {ht : MsmTable} {m m' : MsmInfo} {fp : Bytes}

theorem fp_of_lookup (h : ht.lookup fp = some m) : m.fp = fp := by
  simpa using List.find?_some h

theorem lookup_insert_self (h : ht.lookup m.fp = none) : (ht.insert m h).lookup m.fp = some m := by
  simp [insert, lookup]

theorem lookup_insert_of_ne (h : ht.lookup m.fp = none) (hne : fp ≠ m.fp) :
    (ht.insert m h).lookup fp = ht.lookup fp := by
  simp [insert, lookup, Ne.symm hne]

theorem lookup_update (ht : MsmTable) (m : MsmInfo) (fp : Bytes) : (ht.update m).lookup fp =
    (ht.lookup fp).map fun e => if e.fp = m.fp then m else e := by
  have hfp : ∀ e : MsmInfo, (if e.fp = m.fp then m else e).fp = e.fp := by
    intro e
    split
    next heq => exact heq.symm
    · rfl
  simp only [lookup, update, List.find?_map, Function.comp_def, hfp]

theorem lookup_update_self (h : ht.lookup m.fp = some m') : (ht.update m).lookup m.fp = some m := by
  rw [lookup_update, h, Option.map_some, if_pos (fp_of_lookup h)]

theorem lookup_update_of_ne (hne : fp ≠ m.fp) : (ht.update m).lookup fp = ht.lookup fp := by
  rw [lookup_update]
  cases h : ht.lookup fp with
  | none => rfl
  | some e => rw [Option.map_some, if_neg (fp_of_lookup h ▸ hne)]

end MsmTable

/-- What `read_input_to_ht` does with an accepted line. -/
def addTriple (ht : MsmTable) (t : Triple) : Except Abort MsmTable :=
  match h : ht.lookup t.fp with
  | none => pure (ht.insert (msmInfoInit t.fp t.ts t.bw) h)
  | some m => do pure (ht.update (← msmInfoAdd m t.ts t.bw))

def readInputToHt (input : Bytes) : Except Abort MsmTable :=
  (getlines input).foldlM (fun ht line => do
    match ← readLine line with
    | none => pure ht
    | some t => addTriple ht t) .empty

/-- The arguments of the `fprintf` that writes `node_id=$%s\tbw=%ld\n` for one relay. -/
structure NodeLine where
  fp : Bytes
  bw : Int
  deriving DecidableEq, Repr

/-- What `_v3bw_generate` writes for one entry. -/
def MsmInfo.node (m : MsmInfo) : NodeLine where
  fp := m.fp
  bw := if m.used < secsRequired then minBw else calcMedian (m.msms.toList.take m.used)

/-- What `_v3bw_generate` logs for one entry: `med * 8 / 1000 / 1000`. -/
def MsmInfo.logged (m : MsmInfo) : Except Abort Int := do
  let bits ← longMul m.node.bw 8
  pure ((bits.tdiv 1000).tdiv 1000)

/-- `_v3bw_generate`: the node lines, in the order in which the table is iterated. -/
def v3bwGenerate (rank : Bytes → ℕ) (input : Bytes) : Except Abort (List NodeLine) := do
  let ht ← readInputToHt input
  pure ((ranked rank MsmInfo.fp ht.entries).map MsmInfo.node)

end Flashflow
