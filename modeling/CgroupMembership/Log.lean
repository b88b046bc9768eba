import CgroupMembership.Entry
import CgroupMembership.Identity
import CgroupMembership.Io.Error
/-!
# The log

Nothing that goes wrong while an identity is looked for stops the search; it is noted in the log. A
record says what happened, and `LogRecord.level` and `LogRecord.message` how it is shown.
-/

namespace CgroupMembership

/-- How much a record matters. -/
inductive LogLevel where
  | debug
  | warn
  deriving DecidableEq, Repr

/-- Something worth noting. -/
inductive LogRecord where
  /-- A line that is no entry was passed over. -/
  | skippedLine (cause : MalformedLine)
  /-- There is no source. -/
  | noSource
  /-- The source exists but cannot be opened. -/
  | unreadableSource (cause : OpenError)
  /-- Something failed with the text `error` while `context` was going on. -/
  | failure (context error : Text)
  /-- An identity was found and will be kept. -/
  | resolved (mode : Mode) (identity : Identity)
  deriving DecidableEq

namespace LogRecord

/-- Reading of a line failed. -/
def readFailure (e : IoError) : LogRecord :=
  .failure "failed to read cgroup line".toList e.text

/-- The search for the membership file failed. -/
def locateFailure (e : ExistenceError) : LogRecord :=
  .failure "failed to locate cgroup file".toList e.message

/-- Only failures are warnings. -/
def level : LogRecord → LogLevel
  | .failure .. => .warn
  | _ => .debug

/-- The wording of a record. -/
def message : LogRecord → Text
  | .skippedLine cause => "Skipping cgroup line: ".toList ++ cause.message
  | .noSource => "No cgroup source, skipping identity resolution".toList
  | .unreadableSource cause =>
    "Unreadable cgroup source, skipping identity resolution: ".toList ++ cause.message
  | .failure context error => context ++ ": ".toList ++ error
  | .resolved mode identity =>
    "Resolved ".toList ++ mode.name ++ " cgroup identity: ".toList ++ identity.describe

end LogRecord

/-- The value of a result, or nothing and a warning that says in which context which error came
up. -/
def valueOrWarning {ε α : Type} (context : Text) (wording : ε → Text) :
    Except ε α → Option α × List LogRecord
  | .ok a => (some a, [])
  | .error e => (none, [.failure context (wording e)])

end CgroupMembership
