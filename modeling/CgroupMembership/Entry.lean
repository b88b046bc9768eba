import CgroupMembership.Text.Decimal
import CgroupMembership.Text.Basic
/-!
# Entries of a membership file

One line of a cgroup membership file has three fields between colons: the number of a hierarchy, the
names of its controllers between commas, and the path of the process in that hierarchy. The path is
last and may hold colons itself. `Entry.parse` reads a line and `Entry.render` writes one;
`parse_eq_error` says that the only error is the line itself, without its terminators.
-/

namespace CgroupMembership

/-- A line that is no entry, without the terminators at its end. -/
structure MalformedLine where
  line : Text
  deriving DecidableEq, Repr

/-- The wording of the error, which quotes the line. -/
def MalformedLine.message (e : MalformedLine) : Text :=
  "malformed cgroup line: `".toList ++ e.line ++ "`".toList

/-- The membership of a process in one hierarchy. -/
structure Entry where
  hierarchy : UInt64
  controllers : List Text
  path : Text
  deriving DecidableEq, Repr

namespace Entry

/-- A line feed or a carriage return. -/
def isTerminator (c : Char) : Bool :=
  c == '\n' || c == '\r'

/-- The names in a controller field: none in an empty field, and else one more than it has commas,
empty names included. -/
def readControllers (field : Text) : List Text :=
  if field.isEmpty then [] else field.splitOn ','

/-- The entry in a line that has lost its terminators. -/
def ofFields? (t : Text) : Option Entry :=
  (Text.splitFirst? ':' t).bind fun (number, rest) =>
    (Text.splitFirst? ':' rest).bind fun (controllers, path) =>
      (Text.readWord? number).bind fun hierarchy =>
        if path.isEmpty then none else some ⟨hierarchy, readControllers controllers, path⟩

/-- Reads a line; any run of terminators at its end is dropped first. -/
def parse (line : Text) : Except MalformedLine Entry :=
  match ofFields? (Text.trimEnd isTerminator line) with
  | some e => .ok e
  | none => .error ⟨Text.trimEnd isTerminator line⟩

/-- The line of an entry, without a terminator. -/
def render (e : Entry) : Text :=
  Text.writeDecimal e.hierarchy.toNat ++ ':' :: (List.intercalate [','] e.controllers ++ ':' :: e.path)

theorem parse_eq_ok_iff {line : Text} {e : Entry} :
    parse line = .ok e ↔ ofFields? (Text.trimEnd isTerminator line) = some e := by
  unfold parse
  split <;> simp_all

theorem parse_eq_error {line : Text} {e : MalformedLine} (h : parse line = .error e) :
    e.line = Text.trimEnd isTerminator line ∧ ofFields? e.line = none := by
  unfold parse at h
  split at h
  · simp at h
  · rename_i hn
    simp only [Except.error.injEq] at h
    subst h
    exact ⟨rfl, hn⟩

end Entry

end CgroupMembership
