import CgroupMembership.Log
/-!
# Traces

Looking for an identity asks a source questions, takes items from its stream and writes to the log.
A result comes with all of these events in the order in which they happen; `calls`, `pulled` and
`log` are the three views of such a trace, and each of them splits over an append.
-/

namespace CgroupMembership

/-- What a source can be asked. -/
inductive SourceCall where
  /-- Whether it is there. -/
  | present
  /-- Whether it can be read. -/
  | readable
  /-- For its lines. -/
  | lines
  deriving DecidableEq, Repr

/-- One step of a search that can be seen from outside. -/
inductive Event where
  | called (call : SourceCall)
  /-- A line or a failure was taken from a stream. -/
  | pulled
  | logged (record : LogRecord)
  deriving DecidableEq

namespace Event

/-- The question that was asked. -/
def call? : Event → Option SourceCall
  | .called c => some c
  | _ => none

/-- The record that was written. -/
def record? : Event → Option LogRecord
  | .logged r => some r
  | _ => none

end Event

/-- The events of a search, in order. -/
abbrev Trace := List Event

namespace Trace

/-- The questions asked, in order. -/
def calls (t : Trace) : List SourceCall := t.filterMap Event.call?

/-- The number of lines and failures taken from streams. -/
def pulled (t : Trace) : Nat := t.countP (· = .pulled)

/-- The records written, in order. -/
def log (t : Trace) : List LogRecord := t.filterMap Event.record?

@[simp]
theorem calls_append (a b : Trace) : calls (a ++ b) = calls a ++ calls b := by simp [calls]

@[simp]
theorem pulled_append (a b : Trace) : pulled (a ++ b) = pulled a + pulled b := by simp [pulled]

@[simp]
theorem log_append (a b : Trace) : log (a ++ b) = log a ++ log b := by simp [log]

@[simp]
theorem pulled_cons_pulled (t : Trace) : pulled (.pulled :: t) = pulled t + 1 := by simp [pulled]

@[simp]
theorem calls_map_logged (records : List LogRecord) : calls (records.map .logged) = [] := by
  simp [calls, Function.comp_def, Event.call?]

@[simp]
theorem pulled_map_logged (records : List LogRecord) : pulled (records.map .logged) = 0 := by
  simp [pulled, List.countP_eq_zero]

@[simp]
theorem log_map_logged (records : List LogRecord) : log (records.map .logged) = records := by
  simp [log, Function.comp_def, Event.record?]

end Trace

/-- A result and the events that led to it. -/
@[ext]
structure Traced (α : Type) where
  value : α
  trace : Trace

namespace Traced

variable {α β : Type}

/-- The same events for another result. -/
def map (f : α → β) (t : Traced α) : Traced β := ⟨f t.value, t.trace⟩

/-- Goes on from the result; the events of both searches follow one another. -/
def andThen (t : Traced α) (f : α → Traced β) : Traced β :=
  let next := f t.value
  ⟨next.value, t.trace ++ next.trace⟩

@[simp]
theorem map_value (f : α → β) (t : Traced α) : (t.map f).value = f t.value := rfl

@[simp]
theorem map_trace (f : α → β) (t : Traced α) : (t.map f).trace = t.trace := rfl

@[simp]
theorem andThen_value (t : Traced α) (f : α → Traced β) :
    (t.andThen f).value = (f t.value).value := rfl

@[simp]
theorem andThen_trace (t : Traced α) (f : α → Traced β) :
    (t.andThen f).trace = t.trace ++ (f t.value).trace := rfl

end Traced

end CgroupMembership
