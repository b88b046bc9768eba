import CgroupMembership.Text.Blank
import CgroupMembership.Text.Lines
import CgroupMembership.Path.Ids
import CgroupMembership.Log
/-!
# Rosters

A roster holds the entries of a membership file in order, each with the ids that its path names, and
the identity that follows from them. It is read strictly, where the first malformed line is an
error with its number, or leniently, where each malformed line is noted and passed over; blank lines
count for neither. `collectFrom_append` says that lines may be collected in parts.
-/

namespace CgroupMembership

/-- An entry and the ids that its path names. -/
structure Record where
  entry : Entry
  container : Option ContainerId
  pod : Option PodId
  deriving DecidableEq

/-- The record of an entry. -/
def Record.ofEntry (e : Entry) : Record :=
  ⟨e, (Path.ids e.path).1, (Path.ids e.path).2⟩

/-- The records of a membership file and the identity that they give. -/
structure Roster where
  identity : Identity
  records : List Record
  deriving DecidableEq

/-- A malformed line and its number in the file; the first line has number one. -/
structure ParseError where
  lineNumber : Nat
  cause : MalformedLine
  deriving DecidableEq, Repr

/-- The wording of the error, which ends in that of its cause. -/
def ParseError.message (e : ParseError) : Text :=
  "failed to parse cgroup line ".toList ++ Text.writeDecimal e.lineNumber ++ ": ".toList ++
    e.cause.message

namespace Roster

/-- No records, and nothing known. -/
def empty : Roster := ⟨.unknown, []⟩

/-- Adds a record at the end; its ids win over the ones known so far. -/
def push (r : Roster) (record : Record) : Roster :=
  ⟨r.identity.learn (record.container, record.pod), r.records ++ [record]⟩

/-- Adds the entries of numbered lines, up to the first that is malformed. -/
def parseFrom (number : Nat) (r : Roster) : List Text → Except ParseError Roster
  | [] => .ok r
  | line :: lines =>
    if Text.isBlank line then parseFrom (number + 1) r lines
    else
      match Entry.parse line with
      | .ok e => parseFrom (number + 1) (r.push (.ofEntry e)) lines
      | .error cause => .error ⟨number, cause⟩

/-- Reads the content of a membership file, of which every line has to be an entry or blank. -/
def parse (content : Text) : Except ParseError Roster :=
  parseFrom 1 empty (Text.lines content)

/-- Adds the entry in a line, or gives the record that it is malformed. -/
def enroll (r : Roster) (line : Text) : Roster × Option LogRecord :=
  if Text.isBlank line then (r, none)
  else
    match Entry.parse line with
    | .ok e => (r.push (.ofEntry e), none)
    | .error cause => (r, some (.skippedLine cause))

/-- Adds the entries in all lines that hold one, and logs the others. -/
def collectFrom (r : Roster) : List Text → Roster × List LogRecord
  | [] => (r, [])
  | line :: lines =>
    let a := r.enroll line
    let rest := collectFrom a.1 lines
    (rest.1, a.2.toList ++ rest.2)

/-- The roster of the lines that hold an entry, and the log of the others. -/
def collect (lines : List Text) : Roster × List LogRecord :=
  collectFrom empty lines

theorem collectFrom_append (r : Roster) (a b : List Text) :
    collectFrom r (a ++ b) =
      ((collectFrom (collectFrom r a).1 b).1,
        (collectFrom r a).2 ++ (collectFrom (collectFrom r a).1 b).2) := by
  induction a generalizing r with
  | nil => simp [collectFrom]
  | cons line a ih => simp [collectFrom, ih]

end Roster

end CgroupMembership
