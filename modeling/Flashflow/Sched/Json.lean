import Mathlib.Algebra.GroupWithZero.Nat
import Flashflow.Library.Program
import Flashflow.Sched.Line

/-! `sched_new_from_json`: a list of sets of measurements, printed as the lines of a schedule file.
The measurements of a set wait for those of the set before it. -/
namespace Flashflow.Sched
open Outcome Program Dependency

/-- A map with string keys, as its entries in the order of iteration. -/
structure JsonMap (α : Type) where
  entries : List (Text × α)
  nodup : (entries.map Prod.fst).Nodup

/-- For each relay the classes with their bandwidths, `(bw / 8.0).round() as u32`. -/
abbrev JsonSet := JsonMap (JsonMap UInt32)

/-- How the conversion ends; it always panics in the end. -/
inductive JsonPanic where
  | divideByZero
  | tooFewConns
  | overflow
  | sched (p : Panic)
  | unsupported
  deriving DecidableEq, Repr

/-- The connections of a class when `n` of them share 160. The product cannot overflow. -/
def connsPerClass (n : UInt32) : Except JsonPanic UInt32 :=
  if n = 0 then .error .divideByZero
  else
    let conn := 160 / n
    .ok (if conn * n < 160 then conn + 1 else conn)

/-- `iter().sum::<u32>()` -/
def u32Sum (ns : List UInt32) : Except JsonPanic UInt32 :=
  let total := (ns.map UInt32.toNat).sum
  if total < 2 ^ 32 then .ok (UInt32.ofNat total) else .error .overflow

/-- `next_msm_id += 1`, on an `i32` -/
def i32Succ (n : ℕ) : Except JsonPanic ℕ := if n + 1 < 2 ^ 31 then .ok (n + 1) else .error .overflow

def bgClass : Text := "bg".toList

/-- The connection counts of the classes of one measurement. -/
def jsonConns (classes : List Text) : Except JsonPanic (List UInt32) := do
  let hasBg : Bool := bgClass ∈ classes
  let conn ← connsPerClass (UInt32.ofNat (if hasBg then classes.length - 1 else classes.length))
  let conns := classes.map fun cls => if cls = bgClass then 1 else conn
  let total ← u32Sum conns
  failIf (total < if hasBg then 161 else 160) .tooFewConns
  pure conns

/-- `"{m_id} {fp} {dur} {cls} {bw} {conn} {dep}"` -/
def jsonLine (id : ℕ) (fp : Text) (classes : List (Text × UInt32)) (dep : Text) :
    Except JsonPanic Text := do
  let conns ← jsonConns (classes.map Prod.fst)
  pure (joinWith ' ' [numText id, fp, numText 30, joinWith ',' (classes.map Prod.fst),
    joinWith ',' (classes.map fun c => numText c.2.toNat),
    joinWith ',' (conns.map fun n => numText n.toNat), dep])

/-- The state is `m_strings`; each of them has also been printed. -/
abbrev JsonM := Prog (List Text) JsonPanic

def println (s : Text) : JsonM Unit := modifyState fun lines => lines ++ [s]

/-- The loop over one set, from `next_msm_id` on; returns `new_m_id_set` and the next id. -/
def jsonSet (dep : Text) : List (Text × JsonMap UInt32) → ℕ → JsonM (List ℕ × ℕ)
  | [], next => pure ([], next)
  | (fp, classes) :: rest, next => do
    let s ← fromExcept (jsonLine next fp classes.entries dep)
    println s
    let next' ← fromExcept (i32Succ next)
    let (ids, last) ← jsonSet dep rest next'
    pure (next :: ids, last)

/-- The loop over the sets; `dep` is `last_m_id_set_str`. -/
def jsonSets : List JsonSet → Text → ℕ → JsonM Unit
  | [], _, _ => pure ()
  | set :: sets, dep, next => do
    let (ids, next) ← jsonSet dep set.entries next
    jsonSets sets (joinWith ',' (ids.map numText)) next

/-- `sched_new_from_json` on a file with this content. -/
def schedNewFromJson (base : Msms) (sets : List JsonSet) : JsonM Unit := do
  jsonSets sets "0".toList 1
  let lines ← getState
  let ms ← fromExcept ((parseLines lines).mapError .sched)
  let _ ← fromExcept ((checkAndInsertMeasurements base ms).mapError .sched)
  abort .unsupported

/-- What it has printed when it panics. -/
def jsonPrinted (base : Msms) (sets : List JsonSet) : List Text :=
  (exec (schedNewFromJson base sets) []).2

/-! One line. -/

section Line
variable {id conn : ℕ} {fp dep s : Text} {classes : List (Text × UInt32)} {deps : List ℕ}

/-- The host of a class. -/
def jsonHost (conn : UInt32) (c : Text × UInt32) : Host :=
  ⟨c.1, c.2, if c.1 = bgClass then 1 else conn⟩

/-- The words of the line of a relay, without the dependencies. -/
def jsonParts (id : ℕ) (fp : Text) (classes : List (Text × UInt32)) (conn : UInt32) :
    LineParts :=
  ⟨id, fp, 30, classes.map Prod.fst, classes.map fun c => c.2.toNat,
    classes.map fun c => (jsonHost conn c).conns.toNat⟩

theorem jsonConns_ok {names : List Text} {conns : List UInt32} (h : jsonConns names = .ok conns) :
    names ≠ [] ∧ ∃ conn, conns = names.map fun cls => if cls = bgClass then 1 else conn := by
  simp only [jsonConns, bind_eq_ok, pure_eq_ok] at h
  obtain ⟨conn, hconn, total, -, -, -, rfl⟩ := h
  refine ⟨?_, conn, rfl⟩
  rintro rfl
  cases hconn

theorem jsonLine_ok (h : jsonLine id fp classes dep = .ok s) : classes ≠ [] ∧ ∃ conn : UInt32,
    s = joinWith ' ' ((jsonParts id fp classes conn).words ++ [dep]) := by
  simp only [jsonLine, bind_eq_ok, pure_eq_ok] at h
  obtain ⟨conns, hconns, rfl⟩ := h
  obtain ⟨hne, conn, rfl⟩ := jsonConns_ok hconns
  refine ⟨by simpa using hne, conn, ?_⟩
  simp [LineParts.words, jsonParts, jsonHost, Function.comp_def]

/-- The hosts of a printed line keep to the background host rule. -/
theorem checks_ok (conn : UInt32) (hbg : ∀ c ∈ classes, c.1 = bgClass → c.2 = 125000) :
    ∀ h ∈ classes.map (jsonHost conn), h.cls = "bg".toList → h.conns = 1 ∧ h.bw = 125000 := by
  intro h hmem hcls
  obtain ⟨c, hc, rfl⟩ := List.mem_map.mp hmem
  exact ⟨if_pos hcls, hbg c hc hcls⟩

theorem one_bg (conn : UInt32) (hnd : (classes.map Prod.fst).Nodup) :
    ((classes.map (jsonHost conn)).filter fun h => h.cls = "bg".toList).length ≤ 1 := by
  have hcount : ((classes.map (jsonHost conn)).filter fun h => h.cls = "bg".toList).length =
      (classes.map Prod.fst).count "bg".toList := by
    rw [← List.countP_eq_length_filter, List.countP_map, List.count, List.countP_map]
    apply List.countP_congr
    intro c _
    rw [Function.comp_apply, Function.comp_apply, decide_eq_true_eq, beq_iff_eq]
    exact Iff.rfl
  rw [hcount]
  exact List.nodup_iff_count_le_one.mp hnd _

theorem jsonParts_readable (conn : UInt32) (hid : id < 2 ^ 31) (hfp : IsName fp)
    (hne : classes ≠ []) (hnames : ∀ c ∈ classes, IsName c.1) :
    (jsonParts id fp classes conn).Readable := by
  have hlt : ∀ n : UInt32, n.toNat < 2 ^ 32 := fun n => n.toNat_lt
  constructor
  · exact Nat.lt_trans hid (by decide)
  · exact hfp.toIsWord
  · exact Nat.lt_of_le_of_lt (Nat.le_refl 30) (by decide)
  · exact List.forall_mem_map.mpr hnames
  · simpa [jsonParts] using hne
  · exact List.forall_mem_map.mpr fun c _ => hlt c.2
  · simpa [jsonParts] using hne
  · exact List.forall_mem_map.mpr fun c _ => hlt (jsonHost conn c).conns
  · simpa [jsonParts] using hne

/-- The words of the line pass the checks at its end. -/
theorem jsonParts_finish (conn : UInt32) (hid : 0 < id ∧ id < 2 ^ 31)
    (hnd : (classes.map Prod.fst).Nodup) (hbg : ∀ c ∈ classes, c.1 = bgClass → c.2 = 125000)
    (hdeps : ∀ d ∈ deps, 0 < d ∧ d < id) :
    ((jsonParts id fp classes conn).read 7 (deps.map UInt32.ofNat)).finish =
      .ok ⟨UInt32.ofNat id, fp, 30, .waiting, classes.map (jsonHost conn),
        deps.map UInt32.ofNat, [], 0⟩ := by
  have hid' : id < 2 ^ 32 := Nat.lt_trans hid.2 (by decide)
  have hinj : ∀ d < 2 ^ 32, UInt32.ofNat d = UInt32.ofNat id → d = id := by
    intro d hd heq
    have htoNat := congrArg UInt32.toNat heq
    rwa [UInt32.toNat_ofNat_of_lt' hd, UInt32.toNat_ofNat_of_lt' hid'] at htoNat
  have hzero : UInt32.ofNat id ≠ 0 := by
    intro h0
    have h0' := hinj 0 (by decide) h0.symm
    omega
  have hself : UInt32.ofNat id ∉ deps.map UInt32.ofNat := by
    intro hmem
    obtain ⟨d, hd, heq⟩ := List.mem_map.mp hmem
    have hlt := (hdeps d hd).2
    have heq' := hinj d (Nat.lt_trans hlt hid') heq
    omega
  have hhosts : ((jsonParts id fp classes conn).read 7 (deps.map UInt32.ofNat)).hosts =
      classes.map (jsonHost conn) := by
    simp [LineWords.hosts, LineParts.read, jsonParts, List.zip_map', Function.comp_def, jsonHost]
  rw [LineWords.finish_iff, LineWords.measurement, hhosts]
  exact ⟨hzero, hself, by simp [LineParts.read, jsonParts], checks_ok conn hbg, one_bg conn hnd,
    rfl⟩

/-- A printed line is read back as its measurement. -/
theorem newFromString_jsonLine (hid : 0 < id ∧ id < 2 ^ 31) (hfp : IsName fp)
    (hnames : ∀ c ∈ classes, IsName c.1) (hnd : (classes.map Prod.fst).Nodup)
    (hbg : ∀ c ∈ classes, c.1 = bgClass → c.2 = 125000) (hdep : DepText dep deps)
    (hdeps : ∀ d ∈ deps, 0 < d ∧ d < id) (hs : jsonLine id fp classes dep = .ok s) :
    ∃ conn, newFromString s = .ok (some ⟨UInt32.ofNat id, fp, 30, .waiting,
      classes.map (jsonHost conn), deps.map UInt32.ofNat, [], 0⟩) := by
  obtain ⟨hne, conn, rfl⟩ := jsonLine_ok hs
  refine ⟨conn, ?_⟩
  have hread := jsonParts_readable conn hid.2 hfp hne hnames
  have hdeps' : ∀ d ∈ deps, 0 < d ∧ d < 2 ^ 32 := by
    intro d hd
    obtain ⟨hpos, hlt⟩ := hdeps d hd
    omega
  rw [hread.newFromString hdep hdeps', jsonParts_finish conn hid hnd hbg hdeps]
  rfl

end Line

/-! The whole conversion. -/

/-- The measurement has the relay and the classes with bandwidths of an entry of the map. -/
def Reads (e : Text × JsonMap UInt32) (m : Measurement) : Prop :=
  m.fp = e.1 ∧ m.hosts.map (fun h => (h.cls, h.bw)) = e.2.entries

/-- Relays and classes are names. -/
def WellNamed (entries : List (Text × JsonMap UInt32)) : Prop :=
  ∀ e ∈ entries, IsName e.1 ∧ ∀ c ∈ e.2.entries, IsName c.1

instance (entries : List (Text × JsonMap UInt32)) : Decidable (WellNamed entries) :=
  inferInstanceAs (Decidable (∀ e ∈ entries, IsName e.1 ∧ ∀ c ∈ e.2.entries, IsName c.1))

/-- The bandwidth that `new_from_string` wants for background clients. -/
def BgWellRated (entries : List (Text × JsonMap UInt32)) : Prop :=
  ∀ e ∈ entries, ∀ c ∈ e.2.entries, c.1 = bgClass → c.2 = 125000

/-- The lines of one set, from the id `next` on, are read back as `ms`. -/
structure SetRead (deps : List ℕ) (next : ℕ) (entries : List (Text × JsonMap UInt32))
    (lines : List Text) (ms : List Measurement) : Prop where
  parsed : lines.mapM newFromString = .ok (ms.map some)
  reads : List.Forall₂ Reads entries ms
  ids : ms.map Measurement.id = (List.range' next entries.length).map UInt32.ofNat
  depends : ∀ m ∈ ms, m.depends = deps.map UInt32.ofNat
  bound : next + entries.length ≤ 2 ^ 31

theorem SetRead.nil {deps : List ℕ} {next : ℕ} (h : next < 2 ^ 31) :
    SetRead deps next [] [] [] where
  parsed := rfl
  reads := .nil
  ids := rfl
  depends _ hm := absurd hm List.not_mem_nil
  bound := Nat.le_of_lt h

theorem SetRead.cons {deps : List ℕ} {next : ℕ} {e : Text × JsonMap UInt32}
    {entries : List (Text × JsonMap UInt32)} {line : Text} {lines : List Text} {m : Measurement}
    {ms : List Measurement} (hm : newFromString line = .ok (some m)) (hreads : Reads e m)
    (hid : m.id = UInt32.ofNat next) (hdep : m.depends = deps.map UInt32.ofNat)
    (h : SetRead deps (next + 1) entries lines ms) :
    SetRead deps next (e :: entries) (line :: lines) (m :: ms) where
  parsed := by
    simp only [List.mapM_cons, hm, h.parsed, List.map_cons]
    rfl
  reads := .cons hreads h.reads
  ids := by simp [hid, h.ids, List.range'_succ]
  depends := List.forall_mem_cons.mpr ⟨hdep, h.depends⟩
  bound := by
    have hb := h.bound
    simp only [List.length_cons]
    omega

/-- One set: its lines, or a part of them if the conversion stops. -/
theorem wp_jsonSet {dep : Text} {deps : List ℕ} {entries : List (Text × JsonMap UInt32)} {next : ℕ}
    {old : List Text} (hdep : DepText dep deps) (hdeps : ∀ d ∈ deps, 0 < d ∧ d < next)
    (hpos : 0 < next) (hnext : next < 2 ^ 31) (hnames : WellNamed entries)
    (hbg : BgWellRated entries) : wp (jsonSet dep entries next)
      (fun r printed => r = (List.range' next entries.length, next + entries.length) ∧
        r.2 < 2 ^ 31 ∧ ∃ lines ms, printed = old ++ lines ∧ lines.length = entries.length ∧
          SetRead deps next entries lines ms)
      (fun _ printed => ∃ lines, printed = old ++ lines ∧ lines.length ≤ entries.length ∧
        (lines.length = entries.length → ∃ ms, SetRead deps next entries lines ms)) old := by
  induction entries generalizing next old with
  | nil => exact ⟨rfl, hnext, [], [], by simp, rfl, .nil hnext⟩
  | cons e entries ih =>
    obtain ⟨fp, classes⟩ := e
    obtain ⟨⟨hfp, hclasses⟩, hnames'⟩ := List.forall_mem_cons.mp hnames
    obtain ⟨hbg₀, hbg'⟩ := List.forall_mem_cons.mp hbg
    unfold jsonSet
    cases hline : jsonLine next fp classes.entries dep with
    | error err => exact ⟨[], by simp, Nat.zero_le _, fun h => absurd h (by simp)⟩
    | ok line =>
      obtain ⟨conn, hm⟩ := newFromString_jsonLine ⟨hpos, hnext⟩ hfp hclasses classes.nodup hbg₀ hdep
        hdeps hline
      have hreads : Reads (fp, classes) ⟨UInt32.ofNat next, fp, 30, .waiting,
          classes.entries.map (jsonHost conn), deps.map UInt32.ofNat, [], 0⟩ := by
        refine ⟨rfl, ?_⟩
        simp [jsonHost, Function.comp_def]
      simp only [fromExcept_ok, wp_bind, wp_pure, println, wp_modifyState]
      by_cases hlast : next + 1 < 2 ^ 31
      · have hdeps' : ∀ d ∈ deps, 0 < d ∧ d < next + 1 := fun d hd =>
          ⟨(hdeps d hd).1, Nat.lt_succ_of_lt (hdeps d hd).2⟩
        simp only [i32Succ, if_pos hlast, fromExcept_ok, wp_pure]
        rw [wp_bind]
        refine wp_mono (ih hdeps' (Nat.succ_pos next) hlast hnames' hbg') ?_ ?_
        · rintro _ _ ⟨rfl, hlt, lines, ms, rfl, hlen, hread⟩
          simp only [wp_pure]
          refine ⟨?_, ?_, line :: lines, _, by simp, by simp [hlen],
            .cons hm hreads rfl rfl hread⟩
          · simp only [List.length_cons, List.range'_succ, Prod.mk.injEq, true_and]
            omega
          · exact hlt
        · rintro _ _ ⟨lines, rfl, hle, hread⟩
          refine ⟨line :: lines, by simp, by simpa using hle, fun hlen => ?_⟩
          obtain ⟨ms, hms⟩ := hread (by simpa using hlen)
          exact ⟨_, .cons hm hreads rfl rfl hms⟩
      · -- the counter overflows behind this line
        simp only [i32Succ, if_neg hlast, fromExcept_error, wp_abort]
        refine ⟨[line], rfl, by simp, fun hlen => ?_⟩
        have hnil : entries = [] := by simpa using hlen
        subst hnil
        refine ⟨[_], ?_, .cons hreads .nil, rfl, by simp, ?_⟩
        · simp only [List.mapM_cons, hm]
          rfl
        · exact hnext

/-- Each layer waits for the layer before it. -/
def Layered : List UInt32 → List (List Measurement) → Prop
  | _, [] => True
  | prev, layer :: layers =>
    (∀ m ∈ layer, m.depends = prev) ∧ Layered (layer.map Measurement.id) layers

/-- The number of measurements of a schedule. -/
def jsonTotal (sets : List JsonSet) : ℕ := (sets.map fun set => set.entries.length).sum

@[simp] theorem jsonTotal_cons (set : JsonSet) (sets : List JsonSet) :
    jsonTotal (set :: sets) = set.entries.length + jsonTotal sets := List.sum_cons

/-- The lines of all sets are read back, layer by layer. -/
structure SetsRead (deps : List ℕ) (next : ℕ) (sets : List JsonSet) (lines : List Text)
    (layers : List (List Measurement)) : Prop where
  parsed : lines.mapM newFromString = .ok (layers.flatten.map some)
  reads : List.Forall₂ (fun set layer => List.Forall₂ Reads set.entries layer) sets layers
  ids : layers.flatten.map Measurement.id = (List.range' next (jsonTotal sets)).map UInt32.ofNat
  layered : Layered (deps.map UInt32.ofNat) layers
  bound : next + jsonTotal sets ≤ 2 ^ 31

theorem mapM_append_ok {α β : Type} {f : α → Except Panic β} {l l' : List α} {bs bs' : List β}
    (h : l.mapM f = .ok bs) (h' : l'.mapM f = .ok bs') : (l ++ l').mapM f = .ok (bs ++ bs') := by
  rw [List.mapM_append, h, h']
  rfl

theorem SetRead.sets {deps : List ℕ} {next : ℕ} {set : JsonSet} {sets : List JsonSet}
    {lines lines' : List Text} {layer : List Measurement} {layers : List (List Measurement)}
    (h : SetRead deps next set.entries lines layer)
    (h' : SetsRead (List.range' next set.entries.length) (next + set.entries.length) sets lines'
      layers) : SetsRead deps next (set :: sets) (lines ++ lines') (layer :: layers) where
  parsed := by
    rw [List.flatten_cons, List.map_append]
    exact mapM_append_ok h.parsed h'.parsed
  reads := .cons h.reads h'.reads
  ids := by
    rw [List.flatten_cons, List.map_append, h.ids, h'.ids, ← List.map_append, jsonTotal_cons,
      List.range'_append_1]
  layered := ⟨h.depends, by rw [h.ids]; exact h'.layered⟩
  bound := by
    have hb := h'.bound
    rw [jsonTotal_cons]
    omega

theorem SetsRead.empty {deps : List ℕ} {next : ℕ} {sets : List JsonSet}
    (hempty : jsonTotal sets = 0) (hnext : next ≤ 2 ^ 31) :
    SetsRead deps next sets [] (sets.map fun _ => []) := by
  induction sets generalizing deps with
  | nil => exact ⟨rfl, .nil, rfl, trivial, hnext⟩
  | cons set sets ih =>
    rw [jsonTotal_cons, Nat.add_eq_zero_iff] at hempty
    obtain ⟨hset, hsets⟩ := hempty
    have hread : SetRead deps next set.entries [] [] := by
      have hnil : set.entries = [] := List.eq_nil_of_length_eq_zero hset
      refine ⟨rfl, ?_, ?_, fun m hm => absurd hm List.not_mem_nil, ?_⟩
      · rw [hnil]
        exact .nil
      · rw [hset]
        rfl
      · rw [hset]
        exact hnext
    have hrest : SetsRead (List.range' next set.entries.length) (next + set.entries.length) sets []
        (sets.map fun _ => []) := by
      rw [hset]
      exact ih hsets
    exact hread.sets hrest

/-- `printed` is `old` and what the conversion writes for `sets`, or a part of it. -/
def Written (deps : List ℕ) (next : ℕ) (sets : List JsonSet) (old printed : List Text) : Prop :=
  ∃ lines, printed = old ++ lines ∧ lines.length ≤ jsonTotal sets ∧
    (lines.length = jsonTotal sets → ∃ layers, SetsRead deps next sets lines layers)

theorem wp_jsonSets {sets : List JsonSet} {dep : Text} {deps : List ℕ} {next : ℕ} {old : List Text}
    (hdep : DepText dep deps) (hdeps : ∀ d ∈ deps, 0 < d ∧ d < next) (hpos : 0 < next)
    (hnext : next < 2 ^ 31) (hnames : ∀ set ∈ sets, WellNamed set.entries)
    (hbg : ∀ set ∈ sets, BgWellRated set.entries) : wp (jsonSets sets dep next)
      (fun _ => Written deps next sets old) (fun _ => Written deps next sets old) old := by
  induction sets generalizing dep deps next old with
  | nil => exact ⟨[], by simp, Nat.le_refl 0, fun _ => ⟨[], .empty rfl (Nat.le_of_lt hnext)⟩⟩
  | cons set sets ih =>
    obtain ⟨hnames₀, hnames'⟩ := List.forall_mem_cons.mp hnames
    obtain ⟨hbg₀, hbg'⟩ := List.forall_mem_cons.mp hbg
    unfold jsonSets
    rw [wp_bind]
    refine wp_mono (wp_jsonSet hdep hdeps hpos hnext hnames₀ hbg₀) ?_ ?_
    · rintro _ _ ⟨rfl, hlt, lines, layer, rfl, hlen, hread⟩
      have hdeps' : ∀ d ∈ List.range' next set.entries.length,
          0 < d ∧ d < next + set.entries.length := by
        intro d hd
        obtain ⟨hle, hlt⟩ := List.mem_range'_1.mp hd
        omega
      refine wp_mono (ih (.ids _) hdeps' (Nat.add_pos_left hpos _) hlt hnames' hbg') ?_ ?_
      all_goals
        rintro _ _ ⟨lines', rfl, hle, hall⟩
        refine ⟨lines ++ lines', List.append_assoc _ _ _, ?_, fun htotal => ?_⟩
        · rw [List.length_append, jsonTotal_cons]
          omega
        · rw [List.length_append, jsonTotal_cons] at htotal
          obtain ⟨layers, hlayers⟩ := hall (by omega)
          exact ⟨layer :: layers, hread.sets hlayers⟩
    · rintro _ _ ⟨lines, rfl, hle, hall⟩
      refine ⟨lines, rfl, ?_, fun htotal => ?_⟩
      · rw [jsonTotal_cons]
        omega
      · -- all lines are there, so there is nothing in the remaining sets
        rw [jsonTotal_cons] at htotal
        obtain ⟨layer, hlayer⟩ := hall (by omega)
        have hrest : SetsRead (List.range' next set.entries.length) (next + set.entries.length) sets
            [] (sets.map fun _ => []) := .empty (by omega) hlayer.bound
        have hread := hlayer.sets hrest
        rw [List.append_nil] at hread
        exact ⟨_, hread⟩

/-- What `sched_new_from_json` has printed when it panics. -/
theorem jsonPrinted_written {base : Msms} {sets : List JsonSet}
    (hnames : ∀ set ∈ sets, WellNamed set.entries) (hbg : ∀ set ∈ sets, BgWellRated set.entries) :
    Written [] 1 sets [] (jsonPrinted base sets) := by
  apply wp_last
  rw [schedNewFromJson, wp_bind]
  refine wp_conseq (wp_jsonSets .first (fun d hd => absurd hd List.not_mem_nil) Nat.one_pos
    (by decide) hnames hbg) ?_
  intro _ printed h
  simp only [wp_bind, wp_getState]
  cases (parseLines printed).mapError JsonPanic.sched with
  | error e => exact h
  | ok ms =>
    rw [fromExcept_ok, wp_pure, wp_bind]
    cases (checkAndInsertMeasurements base ms).mapError JsonPanic.sched with
    | error e => exact h
    | ok s => exact h

/-! The order of the layers. -/

/-- No empty set has nonempty ones on both sides. -/
def NoGap (sizes : List ℕ) : Prop := ∀ i j k a b c : ℕ, i < j → j < k →
  sizes[i]? = some a → sizes[j]? = some b → sizes[k]? = some c → a ≠ 0 → c ≠ 0 → b ≠ 0

section Layers
variable {prev : List UInt32} {layers : List (List Measurement)}

theorem Layered.depends_closed (h : Layered prev layers) {ids : List UInt32} (hprev : prev ⊆ ids)
    (hids : ∀ m ∈ layers.flatten, m.id ∈ ids) : ∀ m ∈ layers.flatten, ∀ d ∈ m.depends, d ∈ ids := by
  induction layers generalizing prev with
  | nil => exact fun m hm => absurd hm List.not_mem_nil
  | cons layer layers ih =>
    obtain ⟨hlayer, hrest⟩ := h
    rw [List.flatten_cons] at hids ⊢
    have hids' : layer.map Measurement.id ⊆ ids := by
      intro i hi
      obtain ⟨m, hm, rfl⟩ := List.mem_map.mp hi
      exact hids m (List.mem_append_left _ hm)
    intro m hm d hd
    rcases List.mem_append.mp hm with hm | hm
    · rw [hlayer m hm] at hd
      exact hprev hd
    · exact ih hrest hids' (fun x hx => hids x (List.mem_append_right _ hx)) m hm d hd

theorem Layered.depends_eq (h : Layered prev layers) {k : ℕ} {a b : List Measurement}
    (ha : layers[k]? = some a) (hb : layers[k + 1]? = some b) :
    ∀ m ∈ b, m.depends = a.map Measurement.id := by
  induction layers generalizing prev k with
  | nil => cases ha
  | cons layer layers ih =>
    obtain ⟨-, hrest⟩ := h
    cases k with
    | zero =>
      obtain rfl : layer = a := by simpa using ha
      cases layers with
      | nil => cases hb
      | cons layer' layers =>
        obtain rfl : layer' = b := by simpa using hb
        exact hrest.1
    | succ k => exact ih hrest (by simpa using ha) (by simpa using hb)

/-- Without a gap every measurement waits, through others, for all earlier sets. -/
theorem Layered.waits (h : Layered prev layers) (hgap : NoGap (layers.map List.length))
    {i j : ℕ} {a b : List Measurement} (hij : i < j) (ha : layers[i]? = some a)
    (hb : layers[j]? = some b) {x y : Measurement} (hx : x ∈ a) (hy : y ∈ b) :
    Relation.TransGen (DependsOn layers.flatten) y.id x.id := by
  have hmem : ∀ {k : ℕ} {c : List Measurement} {m : Measurement}, layers[k]? = some c → m ∈ c →
      m ∈ layers.flatten := fun hc hm =>
    List.mem_flatten.mpr ⟨_, List.mem_of_getElem? hc, hm⟩
  obtain ⟨n, rfl⟩ := Nat.exists_eq_add_of_lt hij
  clear hij
  induction n generalizing b y with
  | zero =>
    have hdep := h.depends_eq ha hb y hy
    exact .single ⟨y, hmem hb hy, rfl, hdep ▸ List.mem_map_of_mem hx⟩
  | succ n ih =>
    -- the layer in front of that of `y` is not empty
    obtain ⟨hlt, -⟩ := List.getElem?_eq_some_iff.mp hb
    have hc : layers[i + n + 1]? = some layers[i + n + 1] := List.getElem?_eq_getElem (by omega)
    have hne : layers[i + n + 1].length ≠ 0 := by
      refine hgap i (i + n + 1) (i + (n + 1) + 1) a.length _ b.length (by omega) (by omega)
        (by simp [ha]) (by rw [List.getElem?_map, hc]; rfl) (by simp [hb]) ?_ ?_
      · exact Nat.ne_of_gt (List.length_pos_of_mem hx)
      · exact Nat.ne_of_gt (List.length_pos_of_mem hy)
    obtain ⟨z, hz⟩ := List.exists_mem_of_length_pos (Nat.pos_of_ne_zero hne)
    have hdep := h.depends_eq hc hb y hy
    exact Relation.TransGen.head ⟨y, hmem hb hy, rfl, hdep ▸ List.mem_map_of_mem hz⟩ (ih hz hc)

end Layers

theorem SetsRead.sizes {deps : List ℕ} {next : ℕ} {sets : List JsonSet} {lines : List Text}
    {layers : List (List Measurement)} (h : SetsRead deps next sets lines layers) :
    layers.map List.length = sets.map fun set => set.entries.length := by
  have hreads := h.reads
  clear h
  induction hreads with
  | nil => rfl
  | cons hset _ ih => rw [List.map_cons, List.map_cons, ih, hset.length_eq]

theorem SetsRead.accepted {next : ℕ} {sets : List JsonSet} {lines : List Text}
    {layers : List (List Measurement)} (h : SetsRead [] next sets lines layers) :
    Accepted layers.flatten := by
  constructor
  · rw [h.ids]
    refine List.Nodup.map_on (fun i hi j hj heq => ?_) (List.nodup_range' (h := Nat.one_pos))
    have hb := h.bound
    have hi' := (List.mem_range'_1.mp hi).2
    have hj' := (List.mem_range'_1.mp hj).2
    have htoNat := congrArg UInt32.toNat heq
    have hlt : next + jsonTotal sets ≤ UInt32.size := Nat.le_trans hb (by decide)
    rwa [UInt32.toNat_ofNat_of_lt' (by omega), UInt32.toNat_ofNat_of_lt' (by omega)] at htoNat
  · exact h.layered.depends_closed (List.nil_subset _) fun m hm => List.mem_map_of_mem hm

/-- If all lines get printed and background classes have the bandwidth that the reader wants, the
lines are read back as one measurement for each relay of each set, and the schedule is accepted.
Where no empty set is in between, no measurement is returned before every measurement of every
earlier set has been marked done. -/
theorem json_keeps_order {base : Msms} {sets : List JsonSet}
    (hnames : ∀ set ∈ sets, WellNamed set.entries) (hbg : ∀ set ∈ sets, BgWellRated set.entries)
    (hall : (jsonPrinted base sets).length = jsonTotal sets) : ∃ layers,
      parseLines (jsonPrinted base sets) = .ok layers.flatten ∧
      List.Forall₂ (fun set layer => List.Forall₂ Reads set.entries layer) sets layers ∧
      ∀ left, schedFinished left = true → ∃ s₀,
        checkAndInsertMeasurements left layers.flatten = .ok s₀ ∧
        (NoGap (sets.map fun set => set.entries.length) → ∀ evs s, SchedRun s₀ evs s →
          ∀ (i j : ℕ) (a b : List Measurement), i < j → layers[i]? = some a →
          layers[j]? = some b → ∀ x ∈ a, ∀ y ∈ b, ∀ pre post,
          evs = pre ++ .returned y.id :: post → .markedDone x.id ∈ pre) := by
  have hwritten : Written [] 1 sets [] (jsonPrinted base sets) := jsonPrinted_written hnames hbg
  obtain ⟨lines, hlines, -, hread⟩ := hwritten
  rw [List.nil_append] at hlines
  rw [hlines] at hall ⊢
  obtain ⟨layers, h⟩ := hread hall
  have hparsed : parseLines lines = .ok layers.flatten := by
    have hid : id ∘ (some : Measurement → Option Measurement) = some := rfl
    simp only [parseLines, h.parsed, bind, Except.bind, pure, Except.pure, List.filterMap_map, hid,
      List.filterMap_some]
  have hfresh := parseLines_fresh hparsed
  have ha := h.accepted
  refine ⟨layers, hparsed, h.reads, fun left hleft => ⟨_, ha.checkAndInsert left, ?_⟩⟩
  intro hgap evs s hrun i j a b hij hi hj x hx y hy pre post hevs
  have hymem : y ∈ layers.flatten := List.mem_flatten.mpr ⟨b, List.mem_of_getElem? hj, hy⟩
  obtain ⟨t, c, hist, hready⟩ :=
    hrun.returned_ready ha hleft hfresh rfl hevs (hfresh y hymem).id_ne_zero
  have hwaits := h.layered.waits (h.sizes ▸ hgap) hij hi hj hx hy
  exact hist.marked x.id (hready.complete hist.safe hwaits)

/-! Three small schedules. -/

section Small

def oneClass (fp cls : Text) (bw : UInt32) : JsonSet :=
  ⟨[(fp, ⟨[(cls, bw)], List.nodup_singleton _⟩)], List.nodup_singleton _⟩

/-- A background client with another bandwidth. -/
def bgSets : List JsonSet :=
  [⟨[("AA".toList, ⟨[("m".toList, 5), ("bg".toList, 1000)], by decide⟩)], List.nodup_singleton _⟩]

def chainSets : List JsonSet :=
  [oneClass "AA".toList "m".toList 5, oneClass "BB".toList "m".toList 5]

/-- An empty set between two others. -/
def gapSets : List JsonSet :=
  [oneClass "AA".toList "m".toList 5, ⟨[], List.nodup_nil⟩, oneClass "BB".toList "m".toList 5]

/-- How `gapSets` is read back: the second measurement waits for nothing. -/
def gapSchedule : List Measurement :=
  [⟨1, "AA".toList, 30, .waiting, [⟨"m".toList, 5, 160⟩], [], [], 0⟩,
   ⟨2, "BB".toList, 30, .waiting, [⟨"m".toList, 5, 160⟩], [], [], 0⟩]

/-- Both conversions print all their lines. The lines of `bgSets` are not read back, and those of
`gapSets` let the relay of the last set go first. -/
theorem json_loses_order :
    ((∀ set ∈ bgSets, WellNamed set.entries) ∧
      (jsonPrinted .empty bgSets).length = jsonTotal bgSets ∧
      parseLines (jsonPrinted .empty bgSets) = .error .bgBw) ∧
    ((∀ set ∈ gapSets, WellNamed set.entries) ∧
      (jsonPrinted .empty gapSets).length = jsonTotal gapSets ∧
      parseLines (jsonPrinted .empty gapSets) = .ok gapSchedule ∧
      ∃ s₀ s, checkAndInsertMeasurements .empty gapSchedule = .ok s₀ ∧
        SchedRun s₀ [.returned 2] s) := by
  have hstep : SchedStep (gapSchedule.foldl Msms.insert .empty) (.returned 2) _ :=
    .next (fun id => if id = 2 then 0 else 1) .zero rfl
  exact ⟨⟨by decide, rfl, rfl⟩, ⟨by decide, rfl, rfl, _, _, rfl, LabelledRun.Run.nil.snoc hstep⟩⟩

theorem noGap_chainSets : NoGap (chainSets.map fun set => set.entries.length) := by
  intro i j k a b c hij hjk _ _ hc
  have hk : k < 2 := (List.getElem?_eq_some_iff.mp hc).1
  omega

theorem json_keeps_order_chain : ∃ layers s₀,
    parseLines (jsonPrinted .empty chainSets) = .ok layers.flatten ∧
    List.Forall₂ (fun set layer => List.Forall₂ Reads set.entries layer) chainSets layers ∧
    checkAndInsertMeasurements .empty layers.flatten = .ok s₀ ∧
    ∀ evs s, SchedRun s₀ evs s → ∀ (i j : ℕ) (a b : List Measurement), i < j →
      layers[i]? = some a → layers[j]? = some b → ∀ x ∈ a, ∀ y ∈ b, ∀ pre post,
      evs = pre ++ .returned y.id :: post → .markedDone x.id ∈ pre := by
  obtain ⟨layers, hparsed, hreads, horder⟩ :=
    json_keeps_order (by decide) (by unfold BgWellRated; decide)
      (rfl : (jsonPrinted .empty chainSets).length = jsonTotal chainSets)
  obtain ⟨s₀, hs₀, hgap⟩ := horder .empty rfl
  exact ⟨layers, s₀, hparsed, hreads, hs₀, hgap noGap_chainSets⟩

end Small

end Flashflow.Sched
