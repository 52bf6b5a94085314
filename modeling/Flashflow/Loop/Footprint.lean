import Flashflow.Loop.Effects

/-! The footprint of the operations of the loop. All that happens to the clients is done by the
client functions, and only the stages themselves touch `loops_without_progress`. -/
namespace Flashflow
open Sched Program Outcome

/-- The relation allows what the client functions do, and other changes of the coordinator. -/
structure Footprint (R : Loop → Loop → Prop) : Prop where
  books : ∀ (s : Loop) (t : Coord), t.metas = s.co.metas → t.openFds = s.co.openFds →
    t.loopsWithoutProgress = s.co.loopsWithoutProgress → R s { s with co := t }
  answer : ∀ s : Loop, R s { s with os := { s.os with tick := s.os.tick + 1 } }
  claim : ∀ (s : Loop) {c : ℕ} {x : Meta} (m : UInt32), s.co.metas[c]? = some x →
    R s { s with co := { s.co with metas := s.co.metas.set c { x with currentMId := m } } }
  makeSocket : ∀ c, Keeps R (makeSocket c)
  command : ∀ {p : Phase} {f : Option ℕ → Meta → Except Abort (Bool × Bytes × Meta)},
    (∀ {sent x ok msg y}, f sent x = .ok (ok, msg, y) → MovesTo p.waits x y) →
      ∀ c, Keeps R (command p f c)
  reply : ∀ {p : Phase} {f : Option Bytes → (ℕ → UInt8) → Meta → Except Abort (Bool × Meta)},
    (∀ {recv stale x ok y}, f recv stale x = .ok (ok, y) → MovesTo p.reached x y) →
      ∀ c, Keeps R (reply p f c)
  markFailed : ∀ c, Keeps R (markFailed c)
  finishedWithMeta : ∀ c, Keeps R (finishedWithMeta c)

/-- It also allows that results are written. -/
structure Footprint.Writes (R : Loop → Loop → Prop) : Prop extends Footprint R where
  outputResult : ∀ q c, Keeps R (outputResult q c)

namespace Footprint

/-! A relation that does not look at the coordinator. -/

section
variable {R : Loop → Loop → Prop} [IsPreorder Loop R]
  (hin : ∀ (s : Loop) (t : Coord), t.loopsWithoutProgress = s.co.loopsWithoutProgress →
    R s { s with co := t })
  (hanswer : ∀ s : Loop, R s { s with os := { s.os with tick := s.os.tick + 1 } })
include hin

omit [IsPreorder Loop R] in
theorem setMeta_of_inside (c : ℕ) (x : Meta) : Keeps R (setMeta c x) := fun s => hin s _ rfl

theorem recorded_of_inside (e : Event) : Keeps R (do
    record e
    pure true) :=
  keeps_bind (fun s => hin s _ rfl) fun _ => keeps_pure _

include hanswer

theorem of_inside : Footprint R where
  books s t _ _ h := hin s t h
  answer := hanswer
  claim s _ _ _ _ := hin s _ rfl
  makeSocket c := by
    refine keeps_bind (fun s => hanswer s) fun a => keeps_bind keeps_co fun s => ?_
    refine keeps_bind (keeps_metaAt c) fun x => keeps_bind (keeps_fromExcept _) fun r => ?_
    exact keeps_bind (fun s => hin s _ rfl) fun _ =>
      keeps_bind (setMeta_of_inside hin c _) fun _ => keeps_pure _
  command _ c := by
    refine keeps_bind (fun s => hanswer s) fun a => keeps_bind (keeps_metaAt c) fun x => ?_
    refine keeps_bind (keeps_fromExcept _) fun r => ?_
    refine keeps_bind (setMeta_of_inside hin c _) fun _ => ?_
    exact keeps_ite (recorded_of_inside hin _) (keeps_pure _)
  reply _ c := by
    refine keeps_bind (fun s => hanswer s) fun a => keeps_bind (keeps_metaAt c) fun x => ?_
    refine keeps_bind (keeps_fromExcept _) fun r => ?_
    refine keeps_bind (setMeta_of_inside hin c _) fun _ => ?_
    exact keeps_ite (recorded_of_inside hin _) (keeps_pure _)
  markFailed c := keeps_bind (keeps_metaAt c) fun _ => keeps_bind (keeps_fromExcept _) fun _ =>
    setMeta_of_inside hin c _
  finishedWithMeta c := by
    refine keeps_bind (keeps_metaAt c) fun x => keeps_bind (keeps_fromExcept _) fun r => ?_
    refine keeps_bind (setMeta_of_inside hin c _) fun _ => ?_
    split
    · exact fun s => hin s _ rfl
    · exact keeps_pure _

theorem writes_of_inside (hout : ∀ (s : Loop) (lines : List ResultLine),
    R s { s with os := { s.os with out := s.os.out ++ lines } }) : Writes R where
  toFootprint := of_inside hin hanswer
  outputResult q c := by
    refine keeps_bind (fun s => hanswer s) fun a => keeps_bind (keeps_metaAt c) fun x => ?_
    refine keeps_bind (keeps_fromExcept _) fun r => ?_
    refine keeps_bind (setMeta_of_inside hin c _) fun _ => ?_
    refine keeps_bind (fun s => hout s _) fun _ => ?_
    exact keeps_ite (recorded_of_inside hin _) (keeps_pure _)

end

/-! What the operations of the loop do is allowed. -/

section
variable {R : Loop → Loop → Prop}

theorem allows (h : Footprint R) : Allows R where
  books s t hmetas hfds hloops _ := h.books s t hmetas hfds hloops
  answer := h.answer
  claim := h.claim
  makeSocket := h.makeSocket
  command := h.command
  reply := h.reply
  markFailed := h.markFailed
  finishedWithMeta := h.finishedWithMeta

variable [IsPreorder Loop R] {d d' : Config}

theorem Writes.handleEvents (h : Writes R) (f : FdSets) (fds : List Int) :
    Keeps R (handleEvents f fds) := h.allows.handleEvents h.outputResult f fds

theorem Writes.mainLoopTurn (h : Writes R) (hloops : ∀ (s : Loop) (n : ℕ),
    R s { s with co := { s.co with loopsWithoutProgress := n } }) : Keeps R mainLoopTurn :=
  h.allows.mainLoopTurn h.outputResult hloops

theorem Writes.move (h : Writes R) (hm : Move d d')
    (hcount : d.1 = .giveUp ∨ d.1 = .poll → ∀ (s : Loop) (n : ℕ),
      R s { s with co := { s.co with loopsWithoutProgress := n } }) : R d.2 d'.2 :=
  h.allows.anyMove h.outputResult hm hcount

end

end Footprint

/-- Time goes on, with the same answers to come. -/
structure Loop.Later (s t : Loop) : Prop where
  script : t.os.script = s.os.script
  tick : s.os.tick ≤ t.os.tick

instance : IsPreorder Loop Loop.Later where
  refl _ := ⟨rfl, le_rfl⟩
  trans _ _ _ h h' := ⟨h'.script.trans h.script, h.tick.trans h'.tick⟩

theorem later_writes : Footprint.Writes Loop.Later :=
  Footprint.writes_of_inside (fun _ _ _ => ⟨rfl, le_rfl⟩) (fun _ => ⟨rfl, Nat.le_succ _⟩)
    fun _ _ => ⟨rfl, le_rfl⟩

/-- `loops_without_progress` is the same. -/
def Loop.Paced (s t : Loop) : Prop := t.co.loopsWithoutProgress = s.co.loopsWithoutProgress

instance : IsPreorder Loop Loop.Paced where
  refl _ := rfl
  trans _ _ _ h h' := h'.trans h

theorem paced_writes : Footprint.Writes Loop.Paced :=
  Footprint.writes_of_inside (fun _ _ h => h) (fun _ => rfl) fun _ _ => rfl

end Flashflow
