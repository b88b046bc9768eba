import CgroupMembership.Text.Basic
/-!
# Input and output errors

A failed operation has a kind, which decides what is done about it, and a text for the reader. When
a file cannot be opened, or its existence cannot be told, the error also says which file.
-/

namespace CgroupMembership

/-- The kinds of input and output errors. -/
inductive IoErrorKind where
  | notFound
  | permissionDenied
  | interrupted
  | unexpectedEof
  | invalidData
  | invalidInput
  | wouldBlock
  | notADirectory
  | isADirectory
  | filesystemLoop
  | invalidFilename
  | other
  deriving DecidableEq, Repr

/-- A failed operation. -/
structure IoError where
  kind : IoErrorKind
  text : Text
  deriving DecidableEq, Repr

/-- A file that could not be opened. -/
structure OpenError where
  path : Text
  cause : IoError
  deriving DecidableEq, Repr

/-- A file that may or may not exist. -/
structure ExistenceError where
  path : Text
  cause : IoError
  deriving DecidableEq, Repr

/-- The wording of the error, which quotes the path. -/
def OpenError.message (e : OpenError) : Text :=
  "failed to open file `".toList ++ e.path ++ "`: ".toList ++ e.cause.text

/-- The wording of the error, which quotes the path. -/
def ExistenceError.message (e : ExistenceError) : Text :=
  "failed to check if path `".toList ++ e.path ++ "` exists: ".toList ++ e.cause.text

end CgroupMembership
