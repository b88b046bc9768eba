import CgroupMembership.Text.Basic
/-!
# Lines

A line ends at a newline, and a carriage return directly before that newline belongs to the
terminator. What follows the last newline is a line of its own unless it is empty, and it keeps a
carriage return at its end. The cut is the same for characters and for bytes, so it is defined for
any kind of unit; `cutLine?_eq_some_iff` says that one cut is at the first newline.
-/

namespace CgroupMembership

/-- How a text marks the end of a line: the unit that ends it, and the one that may precede it. -/
structure Terminator (α : Type) where
  newline : α
  carriageReturn : α

namespace Terminator

variable {α : Type} [DecidableEq α] (e : Terminator α)

/-- The units before the first newline, and those after it. -/
def cutLine? : List α → Option (List α × List α)
  | [] => none
  | u :: us =>
    if u = e.newline then some ([], us) else (cutLine? us).map fun p => (u :: p.1, p.2)

/-- Takes one carriage return off the end of what stands before a newline. -/
def dropReturn (line : List α) : List α :=
  if line.getLast? = some e.carriageReturn then line.dropLast else line

/-- The lines of `us`, where `line` holds the units of the current line so far, last one first. -/
def linesFrom (line : List α) : List α → List (List α)
  | [] => if line.isEmpty then [] else [line.reverse]
  | u :: us =>
    if u = e.newline then e.dropReturn line.reverse :: linesFrom [] us
    else linesFrom (u :: line) us

/-- All lines in order, without their terminators. -/
def lines (us : List α) : List (List α) :=
  e.linesFrom [] us

theorem cutLine?_eq_none_iff {us : List α} : e.cutLine? us = none ↔ e.newline ∉ us := by
  induction us with
  | nil => simp [cutLine?]
  | cons u us ih => by_cases h : u = e.newline <;> simp [cutLine?, h, ih, eq_comm (a := e.newline)]

theorem cutLine?_eq_some_iff {us a b : List α} :
    e.cutLine? us = some (a, b) ↔ us = a ++ e.newline :: b ∧ e.newline ∉ a := by
  induction us generalizing a with
  | nil => simp [cutLine?]
  | cons u us ih =>
    by_cases h : u = e.newline <;> cases a <;> simp [cutLine?, h, ih] <;> grind

end Terminator

namespace Text

/-- Lines of characters end at a line feed. -/
def terminator : Terminator Char := ⟨'\n', '\r'⟩

/-- The lines of a text. -/
def lines (t : Text) : List Text :=
  terminator.lines t

end Text

end CgroupMembership
