import CgroupMembership.Text.Basic
import CgroupMembership.Io.Error
/-!
# A file system

Files, directories and symbolic links by their location, and how a path leads to one of them. Names
are looked up one after another; `.` and an empty name stay, `..` goes up, and a link is followed
from the directory it lies in, forty times at most for one path. Links and names can be wrong in
several ways, and each has its error. A file is written at the place that its path leads to, which
may be vacant and may lie behind links. `exists?_eq_ok_false_iff` says that a path is missing only if
it leads nowhere: every other fault leaves the question open.
-/

namespace CgroupMembership

/-- The names on the way from the root, the innermost first. -/
abbrev Location := List Text

/-- What lies at a location. -/
inductive Node where
  | file (bytes : List UInt8)
  | directory
  | link (target : Text)
  deriving DecidableEq, Repr

/-- Why a path does not lead to a file or a directory. -/
inductive PathFault where
  | nulCharacter
  | notFound
  | notADirectory
  | tooManyLinks
  | nameTooLong
  deriving DecidableEq, Repr

/-- The error that a fault is reported as. -/
def PathFault.error : PathFault → IoError
  | .nulCharacter => ⟨.invalidInput, "file name contained an unexpected NUL byte".toList⟩
  | .notFound => ⟨.notFound, "No such file or directory (os error 2)".toList⟩
  | .notADirectory => ⟨.notADirectory, "Not a directory (os error 20)".toList⟩
  | .tooManyLinks => ⟨.filesystemLoop, "Too many levels of symbolic links (os error 40)".toList⟩
  | .nameTooLong => ⟨.invalidFilename, "File name too long (os error 36)".toList⟩

/-- A directory was read as if it were a file. -/
def IoError.isADirectory : IoError :=
  ⟨.isADirectory, "Is a directory (os error 21)".toList⟩

/-- All nodes below the root, and the directory that relative paths start from. -/
structure FileSystem where
  nodes : List (Location × Node)
  current : Location
  deriving DecidableEq, Repr

namespace FileSystem

/-- One empty directory, which is the current one. -/
def ofDirectory (name : Text) : FileSystem :=
  ⟨[([name], .directory)], [name]⟩

/-- The node at a location; the root is a directory. -/
def nodeAt? (fs : FileSystem) (l : Location) : Option Node :=
  if l.isEmpty then some .directory else fs.nodes.lookup l

/-- Puts a node in the place of what was at a location. -/
def put (fs : FileSystem) (l : Location) (node : Node) : FileSystem :=
  ⟨(l, node) :: fs.nodes.filter fun p => p.1 != l, fs.current⟩

/-! ## Paths -/

/-- The most bytes that one name may have. -/
def maxNameLength : Nat := 255

/-- The most bytes that a path may have. -/
def maxPathLength : Nat := 4095

/-- The most links that are followed for one path. -/
def maxLinks : Nat := 40

/-- Where a path starts: at the root if it begins with a slash, and else `here`. -/
def startOf (here : Location) : Text → Location
  | '/' :: _ => []
  | _ => here

/-- Follows names from the directory `here`, with `links` more links allowed. The result is the place
that they lead to: a file or a directory with its location, or the location where the last name is
missing from its directory. A file is reached by the last name only. -/
def walk (fs : FileSystem) (links : Nat) (here : Location) (names : List Text) :
    Except PathFault (Location × Option Node) :=
  match names with
  | [] => .ok (here, some .directory)
  | name :: rest =>
    if name = [] ∨ name = ['.'] then fs.walk links here rest
    else if name = ['.', '.'] then fs.walk links here.tail rest
    else if maxNameLength < Text.byteLength name then .error .nameTooLong
    else
      match fs.nodeAt? (name :: here) with
      | none => if rest.isEmpty then .ok (name :: here, none) else .error .notFound
      | some .directory => fs.walk links (name :: here) rest
      | some (.file bytes) =>
        if rest.isEmpty then .ok (name :: here, some (.file bytes)) else .error .notADirectory
      | some (.link target) =>
        match links with
        | 0 => .error .tooManyLinks
        | links + 1 => fs.walk links (startOf here target) (target.splitOn '/' ++ rest)
termination_by (links, names.length)

/-- What is wrong with a text as a path, whatever lies in the file system. -/
def pathFault? (path : Text) : Option PathFault :=
  if path.contains '\x00' then some .nulCharacter
  else if path.isEmpty then some .notFound
  else if maxPathLength < Text.byteLength path then some .nameTooLong
  else none

/-- The place that a path leads to, which may be vacant. -/
def place (fs : FileSystem) (path : Text) : Except PathFault (Location × Option Node) :=
  match pathFault? path with
  | some fault => .error fault
  | none => fs.walk maxLinks (startOf fs.current path) (path.splitOn '/')

/-- What a path leads to. -/
def find (fs : FileSystem) (path : Text) : Except PathFault Node :=
  match fs.place path with
  | .ok (_, some node) => .ok node
  | .ok (_, none) => .error .notFound
  | .error fault => .error fault

/-- Whether a path leads to something. A link that leads nowhere does not exist. -/
def exists? (fs : FileSystem) (path : Text) : Except ExistenceError Bool :=
  match fs.find path with
  | .ok _ => .ok true
  | .error .notFound => .ok false
  | .error fault => .error ⟨path, fault.error⟩

/-- Opens what a path leads to. A directory can be opened as well as a file. -/
def openNode (fs : FileSystem) (path : Text) : Except OpenError Node :=
  match fs.find path with
  | .ok node => .ok node
  | .error fault => .error ⟨path, fault.error⟩

/-- Whether a path can be opened for reading. -/
def isReadable (fs : FileSystem) (path : Text) : Bool :=
  (fs.openNode path).isOk

/-- The content of an opened node: only a file has one. -/
def contentOf : Node → Except IoError (List UInt8)
  | .file bytes => .ok bytes
  | _ => .error .isADirectory

/-! ## New nodes

What cannot be made leaves the file system as it is. -/

/-- Whether a new directory or link can be put below `here` under this name: nothing is there yet,
not even a link that leads nowhere. -/
def isFree (fs : FileSystem) (here : Location) (name : Text) : Bool :=
  name != ['.'] && name != ['.', '.'] && Text.byteLength name ≤ maxNameLength &&
    (fs.nodeAt? (name :: here)).isNone

/-- Goes into the directory `name` below `here`, which is made if nothing is there. -/
def enter? (fs : FileSystem) (here : Location) (name : Text) : Option (FileSystem × Location) :=
  if fs.isFree here name then some (fs.put (name :: here) .directory, name :: here)
  else
    match fs.walk maxLinks here [name] with
    | .ok (l, some .directory) => some (fs, l)
    | _ => none

/-- Goes into one directory after another, up to one that cannot be entered. -/
def enterAll (fs : FileSystem) (here : Location) : List Text → FileSystem × Option Location
  | [] => (fs, some here)
  | name :: names =>
    match fs.enter? here name with
    | some r => r.1.enterAll r.2 names
    | none => (fs, none)

/-- Writes a file at the place that a path leads to. A file that is there is replaced, and a link is
written through even if it led nowhere so far. -/
def write (fs : FileSystem) (path : Text) (bytes : List UInt8) : FileSystem :=
  match fs.place path with
  | .ok (l, none) => fs.put l (.file bytes)
  | .ok (l, some (.file _)) => fs.put l (.file bytes)
  | _ => fs

/-- Whether a node can be made anywhere: a link needs a target that can be a path. -/
def isMakeable : Node → Bool
  | .link target => (pathFault? target).isNone
  | _ => true

/-- Makes a node at a path, and the directories on the way there. -/
def make (fs : FileSystem) (path : Text) (node : Node) : FileSystem :=
  let names := (path.splitOn '/').filter fun name => !name.isEmpty
  match pathFault? path, names.getLast? with
  | none, some name =>
    let parents := fs.enterAll (startOf fs.current path) names.dropLast
    match node, parents.2 with
    | .file bytes, _ => parents.1.write path bytes
    | node, some here =>
      if parents.1.isFree here name && isMakeable node then parents.1.put (name :: here) node
      else parents.1
    | _, none => parents.1
  | _, _ => fs

theorem nodeAt?_put {fs : FileSystem} {l : Location} {node : Node} (h : l ≠ []) :
    (fs.put l node).nodeAt? l = some node := by
  simp [nodeAt?, put, h]

theorem nodeAt?_put_of_ne {fs : FileSystem} {l m : Location} {node : Node} (h : m ≠ l) :
    (fs.put l node).nodeAt? m = fs.nodeAt? m := by
  have key : ∀ nodes : List (Location × Node),
      (nodes.filter fun p => p.1 != l).lookup m = nodes.lookup m := by
    intro nodes
    induction nodes with
    | nil => rfl
    | cons p nodes ih =>
      obtain ⟨k, n⟩ := p
      by_cases hk : k = l
      · have hm : (m == k) = false := by simpa [hk] using h
        rw [List.filter_cons_of_neg (by simp [hk]), ih, List.lookup_cons, hm]
      · rw [List.filter_cons_of_pos (by simp [hk]), List.lookup_cons, List.lookup_cons, ih]
  have hml : (m == l) = false := by simpa using h
  simp [nodeAt?, put, List.lookup_cons, hml, key]

theorem exists?_eq_ok_false_iff {fs : FileSystem} {path : Text} :
    fs.exists? path = .ok false ↔ fs.find path = .error .notFound := by
  unfold exists?
  split <;> simp_all

end FileSystem

end CgroupMembership
