import CgroupMembership.Search
/-!
# A search in stages

A search asks its source for one thing after another, and between two requests it is at a stage that
says what comes next. `Stage.advance` makes one request, so a search can be followed while it is under
way, also one that never comes to a stop. `advances_add` says that requests may be counted in parts.
-/

namespace CgroupMembership

/-- What a search does next. -/
inductive Stage (mode : Mode) where
  /-- It asks whether the source is there. -/
  | locating
  /-- It asks for the lines. -/
  | opening
  /-- It takes the answer of this number, with what it has found so far. -/
  | reading (stream : LineStream) (number : Nat) (found : mode.Finding)
  /-- Nothing more. -/
  | ended (found : mode.Finding)

namespace Stage

variable {mode : Mode}

/-- Makes the next request of a search in this source. -/
def advance (s : Source) : Stage mode → Traced (Stage mode)
  | .locating =>
    s.askPresent.andThen fun present =>
      if present then ⟨.opening, []⟩ else ⟨.ended mode.nothing, [.logged .noSource]⟩
  | .opening =>
    s.askLines.andThen fun
      | .ok stream => ⟨.reading stream 0 mode.nothing, []⟩
      | .error e => ⟨.ended mode.nothing, [.logged (.unreadableSource e)]⟩
  | .reading stream number found =>
    (mode.takePull found (stream.pull number)).map fun found =>
      if (stream.pull number).stops mode.wants then .ended found
      else .reading stream (number + 1) found
  | .ended found => ⟨.ended found, []⟩

/-- Makes the next `n` requests. -/
def advances (s : Source) : Nat → Stage mode → Traced (Stage mode)
  | 0, stage => ⟨stage, []⟩
  | n + 1, stage => (stage.advance s).andThen (advances s n)

theorem advances_add (s : Source) (m n : Nat) (stage : Stage mode) :
    advances s (m + n) stage = (advances s m stage).andThen (advances s n) := by
  induction m generalizing stage with
  | zero => simp [advances, Traced.andThen]
  | succ m ih => simp [Nat.add_right_comm, advances, Traced.andThen, ih]

end Stage

end CgroupMembership
