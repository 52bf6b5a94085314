import Flashflow.Library.Matching
import Flashflow.Sched.Steps
import Flashflow.Torclient.Meta

/-! What the coordinator asks the scheduler about one measurement: the getters of the library and
`fill_msm_params`. -/
namespace Flashflow
namespace Sched
open Outcome

/-- The bytes of a Rust string. -/
def utf8 (t : Text) : Bytes := t.flatMap String.utf8EncodeChar

/-- `CString::new(..).expect(..)` -/
def cstring (t : Text) : Except Panic Bytes := do
  failIf ('\x00' ∈ t) .interiorNul
  pure (utf8 t)

/-- `MSMS.lock().unwrap().get(&m_id).unwrap()` -/
def lookup (id : UInt32) (s : Msms) : Except Panic Measurement :=
  match s.get? id with
  | none => .error .unknownId
  | some m => .ok m

def schedGetFp (id : UInt32) (s : Msms) : Except Panic Bytes := do
  let m ← lookup id s
  cstring m.fp

def schedGetDur (id : UInt32) (s : Msms) : Except Panic UInt32 := do
  let m ← lookup id s
  pure m.dur

def schedGetFailsafeStop (id : UInt32) (s : Msms) : Except Panic UInt64 := do
  let m ← lookup id s
  pure m.failsafeStop

/-- The three arrays `sched_get_hosts` hands out, as one list. -/
def schedGetHosts (id : UInt32) (s : Msms) : Except Panic (List (Bytes × UInt32 × UInt32)) := do
  let m ← lookup id s
  m.hosts.mapM fun h => do
    let c ← cstring h.cls
    pure (c, h.bw, h.conns)

/-- A measurement whose strings can become C strings. -/
def Measurement.NulFree (m : Measurement) : Prop :=
  '\x00' ∉ m.fp ∧ ∀ h ∈ m.hosts, '\x00' ∉ h.cls

end Sched

open Outcome Sched

/-- Entry `k` of the arrays `m`, `m_bw`, `m_nconn` and `m_assigned` of `struct msm_params`. -/
structure Slot where
  cls : Bytes
  bw : UInt32
  nconn : UInt32
  assigned : Bool
  deriving DecidableEq, Repr

/-- `struct msm_params`; `num_m` is the length of `slots`. -/
structure MsmParams where
  id : UInt32
  fp : Bytes
  dur : UInt32
  failsafeStop : UInt64
  slots : List Slot
  deriving DecidableEq, Repr

/-- `fill_msm_params`: its return value and what it fills in. -/
def fillMsmParams (id : UInt32) (s : Msms) : Except Panic (Bool × MsmParams) := do
  let fp ← schedGetFp id s
  let dur ← schedGetDur id s
  let stop ← schedGetFailsafeStop id s
  let hosts ← schedGetHosts id s
  let slots := hosts.map fun (cls, bw, nconn) => Slot.mk cls bw nconn false
  pure (dur ≠ 0 ∧ slots ≠ [], ⟨id, fp, dur, stop, slots⟩)

/-- The hosts of a measurement as slots to assign. -/
def slots : Matching.Slots Slot Bytes where
  label := Slot.cls
  taken := Slot.assigned
  take s := { s with assigned := true }
  label_take _ := rfl
  taken_take _ := rfl

def Sched.Host.slot (h : Host) : Slot := ⟨utf8 h.cls, h.bw, h.conns, false⟩

/-- What `fill_msm_params` fills in for a measurement. -/
def Sched.Measurement.params (m : Measurement) : MsmParams :=
  ⟨m.id, utf8 m.fp, m.dur, m.failsafeStop, m.hosts.map Host.slot⟩

theorem cstring_eq {t : Text} (h : '\x00' ∉ t) : cstring t = .ok (utf8 t) := by
  simp [cstring, failIf, h]

theorem cstring_error {t : Text} {e : Panic} (h : cstring t = .error e) : e = .interiorNul := by
  simp only [cstring, bind_eq_error, failIf_eq_error] at h
  rcases h with ⟨-, rfl⟩ | ⟨_, _, h⟩
  · rfl
  · cases h

section
variable {id : UInt32} {s : Msms} {m : Measurement} {e : Panic} (hm : s.get? id = some m)
include hm

theorem schedGetFp_eq (hnul : '\x00' ∉ m.fp) : schedGetFp id s = .ok (utf8 m.fp) := by
  simp only [schedGetFp, lookup, hm, bind_eq_ok]
  exact ⟨m, rfl, cstring_eq hnul⟩

theorem schedGetHosts_eq (hnul : ∀ h ∈ m.hosts, '\x00' ∉ h.cls) :
    schedGetHosts id s = .ok (m.hosts.map fun h => (utf8 h.cls, h.bw, h.conns)) := by
  simp only [schedGetHosts, lookup, hm, bind_eq_ok]
  refine ⟨m, rfl, ?_⟩
  generalize m.hosts = hosts at hnul
  induction hosts with
  | nil => rfl
  | cons a hosts ih =>
    obtain ⟨ha, hrest⟩ := List.forall_mem_cons.mp hnul
    simp only [List.mapM_cons, cstring_eq ha, ih hrest]
    rfl

theorem schedGetHosts_nulFree {r : List (Bytes × UInt32 × UInt32)}
    (h : schedGetHosts id s = .ok r) : ∀ x ∈ m.hosts, '\x00' ∉ x.cls := by
  simp only [schedGetHosts, lookup, hm, bind_eq_ok, Except.ok.injEq] at h
  obtain ⟨m', rfl, h⟩ := h
  generalize m.hosts = hosts at h ⊢
  induction hosts generalizing r with
  | nil => simp
  | cons a hosts ih =>
    simp only [List.mapM_cons, cstring, bind_eq_ok, failIf_eq_ok] at h
    obtain ⟨_, ⟨_, ⟨_, ha, -⟩, -⟩, _, hrest, -⟩ := h
    exact List.forall_mem_cons.mpr ⟨ha, ih hrest⟩

theorem schedGetHosts_error (h : schedGetHosts id s = .error e) : e = .interiorNul := by
  simp only [schedGetHosts, lookup, hm, bind_eq_error, reduceCtorEq, false_or] at h
  obtain ⟨m', -, h⟩ := h
  generalize m'.hosts = hosts at h
  induction hosts with
  | nil => cases h
  | cons a hosts ih =>
    simp only [List.mapM_cons, bind_eq_error, pure, Except.pure, reduceCtorEq, and_false,
      exists_false, or_false] at h
    rcases h with h | ⟨_, _, h⟩
    · exact cstring_error h
    · exact ih h

theorem fillMsmParams_eq (hnul : m.NulFree) :
    fillMsmParams id s = .ok (m.dur ≠ 0 ∧ m.hosts ≠ [], m.params) := by
  have hid := Msms.get?_id hm
  simp only [fillMsmParams, schedGetFp_eq hm hnul.1, schedGetHosts_eq hm hnul.2, schedGetDur,
    schedGetFailsafeStop, lookup, hm, bind, Except.bind, pure, Except.pure]
  simp [Measurement.params, hid, Host.slot, Function.comp_def]

theorem fillMsmParams_nulFree {r : Bool × MsmParams} (h : fillMsmParams id s = .ok r) :
    m.NulFree := by
  simp only [fillMsmParams, bind_eq_ok] at h
  obtain ⟨fp, hfp, -, -, -, -, hosts, hhosts, -⟩ := h
  refine ⟨?_, schedGetHosts_nulFree hm hhosts⟩
  simp only [schedGetFp, lookup, hm, cstring, bind_eq_ok, failIf_eq_ok, Except.ok.injEq] at hfp
  obtain ⟨_, rfl, _, hnul, -⟩ := hfp
  exact hnul

/-- It panics only when a string of the measurement has a NUL inside. -/
theorem fillMsmParams_error (h : fillMsmParams id s = .error e) :
    e = .interiorNul ∧ ¬ m.NulFree := by
  have hnul : ¬ m.NulFree := fun hn => by
    rw [fillMsmParams_eq hm hn] at h
    cases h
  refine ⟨?_, hnul⟩
  simp only [fillMsmParams, bind_eq_error, schedGetFp, schedGetDur, schedGetFailsafeStop, lookup,
    hm, reduceCtorEq, false_or, pure, Except.pure, and_false, exists_false, or_false] at h
  rcases h with ⟨_, -, h⟩ | ⟨_, _, _, _, _, _, h⟩
  · exact cstring_error h
  · exact schedGetHosts_error hm h

end
end Flashflow
