import CgroupMembership.Cell.Basic
import CgroupMembership.Proofs.Search.Stages
/-!
# Announcements in the log

A record that an identity will be kept is known by how it begins. No request of a search writes one
(`announced_advance`), so filling a cell announces its identity once, at the end (`announced_fill`).
-/

namespace CgroupMembership

/-- The record is worded as that of an identity that will be kept. -/
def LogRecord.announces (r : LogRecord) : Bool :=
  "Resolved ".toList.isPrefixOf r.message

/-- The announcements among all records, in order. -/
def Trace.announced (t : Trace) : List LogRecord :=
  t.log.filter LogRecord.announces

@[simp]
theorem Trace.announced_append (a b : Trace) : announced (a ++ b) = announced a ++ announced b := by
  simp [announced]

theorem Roster.announces_enroll (r : Roster) (line : Text) :
    ∀ record ∈ (r.enroll line).2, record.announces = false := by
  unfold enroll
  split
  · nofun
  · split
    · nofun
    · rintro _ ⟨⟩
      rfl

theorem Mode.announced_takePull {mode : Mode} (found : mode.Finding) (p : Pull) :
    (mode.takePull found p).trace.announced = [] := by
  cases p with
  | line line =>
    cases mode with
    | fast => rfl
    | detailed =>
      have h := Roster.announces_enroll found line
      cases hr : (Roster.enroll found line).2 <;>
        simp_all [takePull, take, Trace.announced, Trace.log, Event.record?]
  | failure e => rfl
  | finished => rfl

namespace Stage

variable {mode : Mode}

theorem announced_advance (s : Source) (stage : Stage mode) : (stage.advance s).trace.announced = [] := by
  cases stage with
  | locating =>
    cases hp : s.presence with
    | ok b => cases b <;> simp [advance, Source.askPresent, hp] <;> rfl
    | error e => simp [advance, Source.askPresent, hp]; rfl
  | opening => cases hl : s.lines <;> simp [advance, Source.askLines, hl] <;> rfl
  | reading stream number found => exact Mode.announced_takePull found (stream.pull number)
  | ended found => rfl

theorem announced_advances (s : Source) (n : Nat) (stage : Stage mode) :
    (advances s n stage).trace.announced = [] := by
  induction n generalizing stage with
  | zero => rfl
  | succ n ih => simp [advances, announced_advance, ih]

end Stage

namespace Source

variable {mode : Mode} {s : Source}

theorem announced_identify (h : s.Halts mode.wants) : (s.identify mode h).trace.announced = [] := by
  obtain ⟨k, hk⟩ := Stage.exists_advances_eq_ended h
  have := Stage.announced_advances s k (.locating : Stage mode)
  rwa [hk] at this

theorem announced_fill (h : s.Halts mode.wants) :
    (s.fill mode h).trace.announced = [.resolved mode (s.identify mode h).value] := by
  rw [fill, Traced.andThen_trace, Trace.announced_append, announced_identify]
  rfl

end Source

end CgroupMembership
