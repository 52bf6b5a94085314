import Flashflow.Loop.Deadline
import Flashflow.Loop.Descriptors
import Flashflow.Loop.Published
import Flashflow.Rotatefd.Handles
import Flashflow.Rotatefd.Rotation

/-! The whole program: `main` calls `main_loop_once` again and again, and each call leaves its
results and their bandwidths in new files. -/
namespace Flashflow
open Sched Program Outcome FileSystem

/-- The arguments that name the output. -/
structure Argv where
  msmOutFname : Bytes
  v3bwOutFname : Bytes

/-- What a call of `main_loop_once` meets: the contents of the two input files, the answers from
outside, and how the hash tables are walked. -/
structure Outside where
  clientFile : Bytes
  lines : List Text
  clean : ∀ line ∈ lines, '\n' ∉ line
  rank : UInt32 → ℕ
  script : ℕ → Answer
  v3bwRank : Bytes → ℕ
  time : ℕ

/-- What is left between the calls: the table of the library, the open sockets and the files. -/
structure Process (D : Type) where
  msms : Msms
  openFds : List ℕ
  world : World D

def Process.round {D : Type} (p : Process D) (o : Outside) : Round where
  clientFile := o.clientFile
  lines := o.lines
  base := p.msms
  openFds := p.openFds
  rank := o.rank
  os := { script := o.script, tick := 0, out := [] }

section Main
variable {D : Type} [DecidableEq D]

/-- `main_loop_once` after the loop, with everything that was written to the output in it. The value
of `v3bw_generate` is not looked at. -/
def finishRound (argv : Argv) (o : Outside) (outRfd : RotateFd) (t : Loop) (w : World D) :
    Except Fault (Process D) := do
  let w ← (t.os.out.map ResultLine.render).foldlM outRfd.write w
  let w ← rfdClose w (some outRfd)
  let (_, w) ← v3bwGenerateFile o.v3bwRank o.time argv.msmOutFname argv.v3bwOutFname w
  pure ⟨t.co.msms, t.co.openFds, w⟩

/-- `main_loop_once`; `none` is `return -1`. -/
def mainLoopOnce (argv : Argv) (o : Outside) (n : ℕ) (p : Process D) :
    Except Crash (Option (Process D)) := do
  match ← (p.round o).start.mapError (Crash.fault ∘ Fault.abort) with
  | none => pure none
  | some s =>
    match rfdOpen p.world argv.msmOutFname with
    | (none, _) => .error .nullHandle
    | (some outRfd, w) =>
      match ← (mainLoop n s).mapError (Crash.fault ∘ Fault.abort) with
      | none => pure none
      | some t => some <$> (finishRound argv o outRfd t w).mapError Crash.fault

/-- `main` -/
def mainCalls (argv : Argv) : List (Outside × ℕ) → Process D → Except Crash (Option (Process D))
  | [], p => pure (some p)
  | (o, n) :: calls, p => do
    match ← mainLoopOnce argv o n p with
    | none => pure none
    | some p => mainCalls argv calls p

/-! What a call has done if it returns 0. -/

/-- The table is empty, or an earlier call has left it. -/
def Process.Between (p : Process D) : Prop :=
  p.msms = .empty ∨ ∃ r t, AtHead r t ∧ schedFinished t.co.msms = true ∧ p.msms = t.co.msms

variable {argv : Argv} {o : Outside} {n : ℕ} {p p' : Process D} {w w' : World D} {t : Loop}

omit [DecidableEq D] in
theorem Process.Between.atHead (h : p.Between) {s : Loop}
    (hs : (p.round o).start = .ok (some s)) : AtHead (p.round o) s := by
  rcases h with hempty | ⟨r, t, ht, hfin, hbase⟩
  · exact .first hempty hs
  · exact .again ht hfin hbase hs

/-- What was written in the round `t` of the main loop. -/
def Loop.results (t : Loop) : List Bytes := t.os.out.map ResultLine.render

/-- There is a number for the next file. -/
def HasNumber (w : World D) (f : Bytes) : Prop := ∃ n < 1000, w.access (numbered f n) = false

/-- A call that returns 0 has run the loop to its end, with a name for the output, and then
`v3bw_generate` on what was written. -/
structure Returned (argv : Argv) (o : Outside) (p p' : Process D) (t : Loop) (w : World D) :
    Prop where
  start : ∃ s, (p.round o).start = .ok (some s)
  head : AtHead (p.round o) t
  finished : schedFinished t.co.msms = true
  hasNumber : HasNumber p.world argv.msmOutFname
  wrote : runRound p.world ⟨argv.msmOutFname, t.results⟩ = .ok w
  generated : ∃ ret, v3bwGenerateFile o.v3bwRank o.time argv.msmOutFname argv.v3bwOutFname w =
    .ok (ret, p'.world)
  msms : p'.msms = t.co.msms
  openFds : p'.openFds = t.co.openFds

theorem returned_of_ok (h : mainLoopOnce argv o n p = .ok (some p')) (hp : p.Between) :
    ∃ t w, Returned argv o p p' t w := by
  simp only [mainLoopOnce, bind_eq_ok, mapError_eq_ok] at h
  obtain ⟨_ | s, hs, h⟩ := h
  · cases pure_eq_ok.mp h
  cases hopen : rfdOpen p.world argv.msmOutFname with
  | mk outRfd w₁ =>
    rw [hopen] at h
    cases outRfd with
    | none => cases h
    | some rfd =>
      simp only [bind_eq_ok, mapError_eq_ok] at h
      obtain ⟨_ | t, hloop, h⟩ := h
      · cases pure_eq_ok.mp h
      obtain ⟨hhead, hfin⟩ := mainLoop_ok (hp.atHead hs) hloop
      simp only [map_eq_pure_bind, bind_eq_ok, mapError_eq_ok] at h
      obtain ⟨p₁, hfinish, h⟩ := h
      obtain rfl := Option.some.inj (pure_eq_ok.mp h)
      simp only [finishRound, bind_eq_ok, pure_eq_ok] at hfinish
      obtain ⟨w₂, hwrites, w₃, hclose, ⟨ret, w₄⟩, hgen, rfl⟩ := hfinish
      refine ⟨t, w₃, ⟨s, hs⟩, hhead, hfin, ?_, ?_, ⟨ret, hgen⟩, rfl, rfl⟩
      · by_contra hnone
        rw [rfdOpen_eq_none hnone] at hopen
        cases hopen
      · simp only [runRound, hopen, Loop.results, hwrites]
        exact hclose

theorem Returned.between (h : Returned argv o p p' t w) : p'.Between :=
  .inr ⟨_, t, h.head, h.finished, h.msms⟩

/-- What each call does and what comes after it does too is what all calls do. -/
theorem mainCalls_induction {I : Process D → Process D → Prop} {calls : List (Outside × ℕ)}
    (h : mainCalls argv calls p = .ok (some p')) (hp : p.Between) (hrefl : ∀ p, I p p)
    (hcall : ∀ {call p p₁ p' t w}, call ∈ calls → Returned argv call.1 p p₁ t w → I p₁ p' →
      I p p') :
    p'.Between ∧ I p p' := by
  induction calls generalizing p with
  | nil =>
    obtain rfl := Option.some.inj (pure_eq_ok.mp h)
    exact ⟨hp, hrefl p⟩
  | cons call calls ih =>
    obtain ⟨_ | p₁, hfirst, hrest⟩ := bind_eq_ok.mp h
    · cases pure_eq_ok.mp hrest
    obtain ⟨t, w, hret⟩ := returned_of_ok hfirst hp
    obtain ⟨hp', hI⟩ := ih hrest hret.between fun hmem => hcall (List.mem_cons_of_mem _ hmem)
    exact ⟨hp', hcall List.mem_cons_self hret hI⟩

/-! The sockets. -/

omit [DecidableEq D] in
/-- At every head in a call, what no client holds is what was open before the call and what was left
behind by connection attempts of the call. -/
theorem Process.lost_at {s : Loop} (h : AtHead (p.round o) s) : Descriptors (p.round o) s ∧
    ((p.round o).Connects → s.co.lost = p.openFds) := by
  obtain ⟨-, hd⟩ := h.reach.descriptors
  refine ⟨hd, fun ho => ?_⟩
  obtain ⟨ticks, -, hticks, hlen⟩ := hd.left
  obtain rfl : ticks = [] := List.eq_nil_iff_forall_not_mem.mpr fun k hk => by
    obtain ⟨-, htried, hleak⟩ := hticks k hk
    rw [ho k htried] at hleak
    cases hleak
  exact (hd.before.eq_of_length hlen.symm).symm

theorem Returned.sockets (h : Returned argv o p p' t w) :
    p.openFds <:+ p'.openFds ∧ ((p.round o).Connects → p'.openFds = p.openFds) := by
  obtain ⟨hd, hsame⟩ := Process.lost_at h.head
  rw [h.openFds, ← h.head.lost_of_finished h.finished]
  exact ⟨hd.before, hsame⟩

/-- No connection attempt in the calls fails with its socket open. -/
def AllConnect (argv : Argv) : List (Outside × ℕ) → Process D → Prop
  | [], _ => True
  | call :: calls, p => (p.round call.1).Connects ∧
      ∀ p', mainLoopOnce argv call.1 call.2 p = .ok (some p') → AllConnect argv calls p'

theorem mainCalls_sockets {calls : List (Outside × ℕ)}
    (h : mainCalls argv calls p = .ok (some p')) (hp : p.Between) :
    p.openFds <:+ p'.openFds ∧ (AllConnect argv calls p → p'.openFds = p.openFds) := by
  induction calls generalizing p with
  | nil =>
    obtain rfl := Option.some.inj (pure_eq_ok.mp h)
    exact ⟨List.suffix_refl _, fun _ => rfl⟩
  | cons call calls ih =>
    obtain ⟨_ | p₁, hfirst, hrest⟩ := bind_eq_ok.mp h
    · cases pure_eq_ok.mp hrest
    obtain ⟨t, w, hret⟩ := returned_of_ok hfirst hp
    obtain ⟨hsuffix, hsame⟩ := ih hrest hret.between
    obtain ⟨hbefore, hfirstSame⟩ := hret.sockets
    refine ⟨hbefore.trans hsuffix, ?_⟩
    rintro ⟨hconnects, hall⟩
    exact (hsame (hall p₁ hfirst)).trans (hfirstSame hconnects)

/-- The sockets of a whole run. No call closes what it has not opened. At every head in every call
what is open is held by clients, or was open before, or was left behind by a connection attempt
that failed, one socket for each, and when a call is over no client holds anything: so if no attempt
fails with its socket open, everything that was opened is closed again. -/
theorem sockets_accounted {calls : List (Outside × ℕ)} {fds : List ℕ} {s : Loop}
    (hcalls : mainCalls argv calls ⟨.empty, fds, w⟩ = .ok (some p))
    (hhead : AtHead (p.round o) s) :
    fds <:+ p.openFds ∧ Descriptors (p.round o) s ∧
      (schedFinished s.co.msms = true → s.co.lost = s.co.openFds) ∧
      (AllConnect argv calls ⟨.empty, fds, w⟩ →
        p.openFds = fds ∧ ((p.round o).Connects → s.co.lost = fds)) := by
  obtain ⟨hbefore, hsame⟩ := mainCalls_sockets hcalls (.inl rfl)
  obtain ⟨hd, hlost⟩ := Process.lost_at hhead
  refine ⟨hbefore, hd, hhead.lost_of_finished, fun hall => ?_⟩
  exact ⟨hsame hall, fun ho => (hlost ho).trans (hsame hall)⟩

end Main

/-! A process in the directory in which the second number of the results is taken. -/

def measuredOutside : Outside where
  clientFile := twoClients.clientFile
  lines := ["1 AAAAAAAAAAAAAAAAAAAAAAAAAAAAAAAAAAAAAAAA 30 m,n 100,50 2,1".toList]
  clean := List.forall_mem_singleton.mpr (by decide)
  rank _ := 0
  script tick :=
    if tick = 28 then
      { twoClients.os.script 28 with
        recv := some (bytes "650 SPEEDTESTING 7 500 600\n650 SPEEDTESTING END\r\n") }
    else twoClients.os.script tick
  v3bwRank _ := 0
  time := 100

def exampleArgv : Argv := ⟨bytes "msm", bytes "v3bw"⟩

def bootedProcess : Process Unit := ⟨.empty, [0, 1, 2], ⟨exampleDisk, []⟩⟩

theorem measuredOutside_connects (p : Process Unit) : (p.round measuredOutside).Connects := by
  intro k _
  change (measuredOutside.script k).leaks = false
  simp only [measuredOutside]
  split <;> rfl

theorem sockets_accounted_second : ∃ (p : Process Unit) (s : Loop),
    mainCalls exampleArgv [(measuredOutside, 5)] bootedProcess = .ok (some p) ∧
    AtHead (p.round measuredOutside) s ∧ p.openFds = [0, 1, 2] ∧ s.co.lost = [0, 1, 2] := by
  have hruns : ((mainCalls exampleArgv [(measuredOutside, 5)] bootedProcess).toOption.join.bind
      fun p => (p.round measuredOutside).start.toOption.join.map fun s => s.co.known) =
      some [] := by
    decide +kernel
  obtain ⟨p, hp, hstart⟩ := Option.bind_eq_some_iff.mp hruns
  obtain ⟨s, hs, -⟩ := Option.map_eq_some_iff.mp hstart
  have hcalls := eq_ok_of_toOption (Option.join_eq_some_iff.mp hp)
  have hhead : AtHead (p.round measuredOutside) s :=
    (mainCalls_induction (I := fun _ _ => True) hcalls (.inl rfl) (fun _ => trivial)
      fun _ _ _ => trivial).1.atHead (eq_ok_of_toOption (Option.join_eq_some_iff.mp hs))
  obtain ⟨-, -, -, hsame⟩ := sockets_accounted hcalls hhead
  obtain ⟨hfds, hlost⟩ := hsame ⟨measuredOutside_connects _, fun _ _ => trivial⟩
  exact ⟨p, s, hcalls, hhead, hfds, hlost (measuredOutside_connects p)⟩

end Flashflow
