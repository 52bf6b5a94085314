import Mathlib.Data.List.Nodup
import Mathlib.Data.List.Dedup
import Mathlib.Tactic.Simps.Basic
import Flashflow.Library.Iteration
import Flashflow.Sched.Measurement

/-! The table of measurements, `MSMS: HashMap<u32, Measurement>`, and the scheduler calls on it.
The only insertion is `insert(m.id, m)`, so an entry carries its own key. -/
namespace Flashflow.Sched
open Outcome Iteration

/-- The measurements in the table, with distinct keys. -/
@[ext] structure Msms where
  entries : List Measurement
  nodup : (entries.map Measurement.id).Nodup

namespace Msms

def empty : Msms := ⟨[], List.nodup_nil⟩

def get? (s : Msms) (id : UInt32) : Option Measurement := s.entries.find? (fun m => m.id = id)

/-- Apply `f` to every value; keys stay. -/
def mapValues (s : Msms) (f : Measurement → Measurement) (hf : ∀ m, (f m).id = m.id) : Msms where
  entries := s.entries.map f
  nodup := by
    have hid : Measurement.id ∘ f = Measurement.id := funext hf
    simpa [List.map_map, hid] using s.nodup

/-- `HashMap::insert(m.id, m)` -/
def insert (s : Msms) (m : Measurement) : Msms :=
  if hm : m.id ∈ s.entries.map Measurement.id then
    { entries := s.entries.map fun e => if e.id = m.id then m else e
      nodup := by
        have hid : (Measurement.id ∘ fun e => if e.id = m.id then m else e) = Measurement.id := by
          funext e
          by_cases he : e.id = m.id <;> simp [he]
        simpa [List.map_map, hid] using s.nodup }
  else
    { entries := s.entries ++ [m]
      nodup := by
        have hne : ∀ a ∈ s.entries, a.id ≠ m.id := fun a ha he =>
          hm (List.mem_map.mpr ⟨a, ha, he⟩)
        simpa [List.nodup_append, s.nodup] using hne }

theorem get?_eq_some_iff {s : Msms} {id : UInt32} {m : Measurement} :
    s.get? id = some m ↔ m ∈ s.entries ∧ m.id = id := by
  constructor
  · intro h
    exact ⟨List.mem_of_find?_eq_some h, by simpa using List.find?_some h⟩
  · rintro ⟨hm, rfl⟩
    cases hf : s.get? m.id with
    | none => simpa using List.find?_eq_none.mp hf m hm
    | some m' =>
      have hid : m'.id = m.id := by simpa using List.find?_some hf
      rw [List.inj_on_of_nodup_map s.nodup (List.mem_of_find?_eq_some hf) hm hid]

theorem get?_id {s : Msms} {id : UInt32} {m : Measurement} (h : s.get? id = some m) : m.id = id :=
  (get?_eq_some_iff.mp h).2

@[simp] theorem get?_mapValues (s : Msms) (f : Measurement → Measurement)
    (hf : ∀ m, (f m).id = m.id) (id : UInt32) :
    (s.mapValues f hf).get? id = (s.get? id).map f := by
  have hcomp : (fun m : Measurement => decide (m.id = id)) ∘ f = fun m => decide (m.id = id) := by
    funext m
    rw [Function.comp_apply, hf]
  rw [get?, mapValues, List.find?_map, hcomp]
  rfl

theorem get?_insert (s : Msms) (m : Measurement) (id : UInt32) :
    (s.insert m).get? id = if id = m.id then some m else s.get? id := by
  by_cases hid : id = m.id
  · subst hid
    rw [if_pos rfl, get?_eq_some_iff]
    refine ⟨?_, rfl⟩
    unfold insert
    split
    next hm =>
      obtain ⟨e, he, heq⟩ := List.mem_map.mp hm
      exact List.mem_map.mpr ⟨e, he, if_pos heq⟩
    next => simp
  · rw [if_neg hid]
    unfold insert
    split
    · rw [get?, get?, List.find?_map]
      have hp : ((fun m : Measurement => decide (m.id = id)) ∘
          fun e => if e.id = m.id then m else e) = fun e => decide (e.id = id) := by
        funext e
        by_cases he : e.id = m.id <;> simp [he, Ne.symm hid]
      rw [hp]
      cases hf : s.entries.find? (fun e => decide (e.id = id)) with
      | none => rfl
      | some e =>
        have he : e.id = id := by simpa using List.find?_some hf
        simp [he, hid]
    · simp [get?, List.find?_append, Ne.symm hid]

theorem get?_foldl_insert {ms : List Measurement} (hms : (ms.map Measurement.id).Nodup) (s : Msms)
    (id : UInt32) :
    (ms.foldl insert s).get? id = (ms.find? (fun m => m.id = id)).or (s.get? id) := by
  induction ms generalizing s with
  | nil => simp
  | cons m ms ih =>
    obtain ⟨hm, hms⟩ := List.nodup_cons.mp hms
    rw [List.foldl_cons, ih hms, get?_insert]
    by_cases hid : m.id = id
    · subst hid
      have hf : ms.find? (fun m' => m'.id = m.id) = none := by
        simp only [List.find?_eq_none, decide_eq_true_eq]
        exact fun x hx heq => hm (List.mem_map.mpr ⟨x, hx, heq⟩)
      simp [hf]
    · simp [hid, Ne.symm hid]

/-- The state of a measurement, if it is in the table. -/
def stateOf (s : Msms) (id : UInt32) : Option State := (s.get? id).map Measurement.state

end Msms

/-- `SystemTime::now().duration_since(UNIX_EPOCH).as_secs()`. A Unix clock is a signed 64-bit
count of seconds. -/
structure EpochSecs where
  secs : UInt64
  bound : secs.toNat < 2 ^ 63

def EpochSecs.zero : EpochSecs := ⟨0, by decide⟩

/-- Checked `u32` multiplication, as in the debug build. -/
def u32Mul (a b : UInt32) : Except Panic UInt32 :=
  if a.toNat * b.toNat < 2 ^ 32 then .ok (a * b) else .error .overflow

/-- Checked `u64` addition. -/
def u64Add (a b : UInt64) : Except Panic UInt64 :=
  if a.toNat + b.toNat < 2 ^ 64 then .ok (a + b) else .error .overflow

/-- `SystemTime::now()... .as_secs() + (3 * m.dur / 2) as u64` -/
def failsafeStop (now : EpochSecs) (dur : UInt32) : Except Panic UInt64 := do
  let p ← u32Mul 3 dur
  u64Add now.secs (p / 2).toUInt64

theorem failsafeStop_ok_iff (now : EpochSecs) (dur : UInt32) :
    (∃ stop, failsafeStop now dur = .ok stop) ↔ 3 * dur.toNat < 2 ^ 32 := by
  constructor
  · rintro ⟨stop, h⟩
    obtain ⟨p, hp, -⟩ := bind_eq_ok.mp h
    by_contra hlt
    rw [u32Mul, if_neg (by simpa using hlt)] at hp
    cases hp
  · intro h
    refine ⟨now.secs + (3 * dur / 2).toUInt64, bind_eq_ok.mpr ⟨3 * dur, ?_, ?_⟩⟩
    · simpa [u32Mul] using h
    · have hb := now.bound
      have hq : ((3 * dur / 2).toUInt64).toNat < 2 ^ 32 := by
        simpa using (3 * dur / 2).toNat_lt
      rw [u64Add, if_pos (by omega)]

theorem failsafeStop_error {now : EpochSecs} {dur : UInt32} {e : Panic}
    (h : failsafeStop now dur = .error e) : e = .overflow ∧ ¬ 3 * dur.toNat < 2 ^ 32 := by
  constructor
  · simp only [failsafeStop, bind_eq_error, u32Mul, u64Add] at h
    rcases h with h | ⟨p, -, h⟩ <;> split at h <;> cases h <;> rfl
  · intro hlt
    obtain ⟨stop, hs⟩ := (failsafeStop_ok_iff now dur).mpr hlt
    rw [hs] at h
    cases h

/-- The readiness test of `sched_next_internal`. -/
def Measurement.ready (m : Measurement) : Bool :=
  m.state = .waiting ∧ m.depends.length = m.finishedDepends.length

@[simps] def Measurement.begin (m : Measurement) (stop : UInt64) : Measurement :=
  { m with state := .inProgress, failsafeStop := stop }

@[simps] def Measurement.complete (m : Measurement) : Measurement := { m with state := .complete }

@[simps] def Measurement.resetStop (m : Measurement) (stop : UInt64) : Measurement :=
  { m with failsafeStop := stop }

/-- `if m.depends.contains(&m_id) { m.finished_depends.push(m_id); }` -/
def Measurement.noteDone (id : UInt32) (m : Measurement) : Measurement :=
  if id ∈ m.depends then { m with finishedDepends := m.finishedDepends ++ [id] } else m

@[simp] theorem Measurement.noteDone_id (id : UInt32) (m : Measurement) :
    (m.noteDone id).id = m.id := by
  unfold noteDone
  split <;> rfl

@[simp] theorem Measurement.noteDone_state (id : UInt32) (m : Measurement) :
    (m.noteDone id).state = m.state := by
  unfold noteDone
  split <;> rfl

@[simp] theorem Measurement.noteDone_depends (id : UInt32) (m : Measurement) :
    (m.noteDone id).depends = m.depends := by
  unfold noteDone
  split <;> rfl

theorem Measurement.mem_noteDone {id d : UInt32} {m : Measurement} :
    d ∈ (m.noteDone id).finishedDepends ↔ d ∈ m.finishedDepends ∨ d = id ∧ id ∈ m.depends := by
  unfold noteDone
  split
  next hid => simp [hid]
  next hid => simp [hid]

theorem Measurement.nodup_noteDone {id : UInt32} {m : Measurement} (h : m.finishedDepends.Nodup)
    (hnew : id ∉ m.finishedDepends) : (m.noteDone id).finishedDepends.Nodup := by
  unfold noteDone
  split
  · simpa using List.Nodup.concat hnew h
  · exact h

/-- Change the entry with key `id`. -/
def Msms.update (s : Msms) (id : UInt32) (f : Measurement → Measurement)
    (hf : ∀ m, (f m).id = m.id) : Msms :=
  s.mapValues (fun m => if m.id = id then f m else m) fun m => by split <;> simp [hf]

theorem Msms.get?_update (s : Msms) (id : UInt32) (f : Measurement → Measurement)
    (hf : ∀ m, (f m).id = m.id) (i : UInt32) :
    (s.update id f hf).get? i = if i = id then (s.get? i).map f else s.get? i := by
  rw [Msms.update, get?_mapValues]
  cases h : s.get? i with
  | none => simp
  | some m =>
    have hm := get?_id h
    by_cases hi : i = id <;> simp [hm, hi]

/-- The loop of `sched_mark_done` over all values. -/
def Msms.noteDone (s : Msms) (id : UInt32) : Msms :=
  s.mapValues (Measurement.noteDone id) (Measurement.noteDone_id id)

/-- `sched_next_internal`, with the iteration order of the table and the clock as parameters. -/
def schedNextInternal (rank : UInt32 → ℕ) (now : EpochSecs) (mark : Bool) (s : Msms) :
    Except Panic (UInt32 × Msms) :=
  match (ranked rank Measurement.id s.entries).find? Measurement.ready with
  | none => .ok (0, s)
  | some m =>
    if mark then do
      let stop ← failsafeStop now m.dur
      pure (m.id, s.update m.id (fun x => x.begin stop) (fun x => x.begin_id stop))
    else .ok (m.id, s)

def schedNext (rank : UInt32 → ℕ) (now : EpochSecs) (s : Msms) : Except Panic (UInt32 × Msms) :=
  schedNextInternal rank now true s

def schedMarkDone (id : UInt32) (s : Msms) : Except Panic Msms :=
  match s.get? id with
  | none => .error .unknownDone
  | some m => do
    failIf (m.state ≠ .inProgress) .notInProgress
    pure ((s.update id Measurement.complete Measurement.complete_id).noteDone id)

/-- `sched_reset_failsafe_stop` -/
def schedResetFailsafeStop (now : EpochSecs) (id : UInt32) (s : Msms) : Except Panic Msms :=
  match s.get? id with
  | none => .error .unknownId
  | some m => do
    let stop ← failsafeStop now m.dur
    pure (s.update id (fun x => x.resetStop stop) (fun x => x.resetStop_id stop))

def schedNumIncomplete (s : Msms) : ℕ := (s.entries.filter (fun m => m.state ≠ .complete)).length

def schedFinished (s : Msms) : Bool := schedNumIncomplete s == 0

def schedNum (s : Msms) : ℕ := s.entries.length

/-- `check_and_insert_measurements` -/
def checkAndInsertMeasurements (base : Msms) (ms : List Measurement) : Except Panic Msms := do
  let mIds := (ms.map Measurement.id).dedup
  failIf (mIds.length ≠ ms.length) .duplicateId
  let depIds := (ms.flatMap Measurement.depends).dedup
  failIf (∃ id ∈ depIds, id ∉ mIds) .unknownDepend
  pure (ms.foldl Msms.insert base)

/-- The measurements of the lines of a schedule file, comments and blank lines left out. -/
def parseLines (lines : List Text) : Except Panic (List Measurement) := do
  let ms ← lines.mapM newFromString
  pure (ms.filterMap id)

/-- `sched_new` on a `.txt` file with these lines. (A `.json` name always panics, after printing
the text form of the schedule; any other name panics at once.) -/
def schedNew (rank : UInt32 → ℕ) (base : Msms) (lines : List Text) : Except Panic (Msms × ℕ) := do
  let ms ← parseLines lines
  let s ← checkAndInsertMeasurements base ms
  let r ← schedNextInternal rank .zero false s
  failIf (r.1 = 0) .noneReady
  pure (s, schedNum s)

end Flashflow.Sched
