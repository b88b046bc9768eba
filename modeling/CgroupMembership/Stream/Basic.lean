import CgroupMembership.Text.Basic
import CgroupMembership.Io.Error
/-!
# Streams of lines

A stream answers one request after another with a line, a failure or its end. Neither a failure nor
the end has to be the last answer, and a stream may go on without ever ending, so it is a function
of the number of the request. A scan reads on until the end, a failure or a line that it wants, and is
carried out only on a stream where it comes to a stop (`Halts`). A stream that ends or fails stops every
scan (`Settled.halts`).
-/

namespace CgroupMembership

/-- The answer to one request for a line. -/
inductive Pull where
  | line (text : Text)
  | failure (error : IoError)
  | finished
  deriving DecidableEq, Repr

namespace Pull

/-- The line that was asked for. -/
def line? : Pull → Option Text
  | .line t => some t
  | _ => none

/-- Whether a scan for a wanted line goes no further. -/
def stops (wanted : Text → Bool) : Pull → Bool
  | .line t => wanted t
  | .failure _ => true
  | .finished => true

end Pull

/-- A source of lines that has been opened: its answer to each request, counted from zero. -/
structure LineStream where
  pull : Nat → Pull

namespace LineStream

/-- The stream with these answers, which is at its end afterwards. -/
def ofArray (answers : Array Pull) : LineStream :=
  ⟨fun n => (answers[n]?).getD .finished⟩

/-- The stream of these lines. -/
def ofLines (lines : List Text) : LineStream :=
  ofArray (lines.map Pull.line).toArray

/-- The stream that fails at every request. -/
def failing (e : IoError) : LineStream :=
  ⟨fun _ => .failure e⟩

/-- The answers to the first `n` requests. -/
def firstPulls (s : LineStream) (n : Nat) : List Pull :=
  (List.range n).map s.pull

/-- A scan of the stream for a wanted line comes to a stop. -/
def Halts (s : LineStream) (wanted : Text → Bool) : Prop :=
  ∃ n, (s.pull n).stops wanted = true

/-- The stream ends or fails at some time, so every scan of it comes to a stop. -/
def Settled (s : LineStream) : Prop :=
  s.Halts fun _ => false

theorem Settled.halts {s : LineStream} (h : s.Settled) (wanted : Text → Bool) : s.Halts wanted := by
  obtain ⟨n, hn⟩ := h
  refine ⟨n, ?_⟩
  cases hp : s.pull n <;> simp_all [Pull.stops]

theorem settled_ofArray (answers : Array Pull) : (ofArray answers).Settled :=
  ⟨answers.size, by simp [ofArray, Pull.stops]⟩

theorem settled_failing (e : IoError) : (failing e).Settled :=
  ⟨0, rfl⟩

end LineStream

end CgroupMembership
