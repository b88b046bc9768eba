import CgroupMembership.Text.Lines
import CgroupMembership.Text.Utf8
import CgroupMembership.Stream.Basic
/-!
# Lines of a byte reader

Bytes arrive in pieces. A reader holds the bytes that have arrived and not been read yet, and the
events still to come. It reads a line up to the next newline, over as many events as that takes: an
interruption is passed over, the end of the file ends the line, and a failure loses the bytes of
that line. Later events are read by later requests, also after an end or a failure. `next_size_lt`
says that each request uses something up, so the answers of a reader are finitely many.
-/

namespace CgroupMembership

/-- What happens when a reader asks for more bytes. -/
inductive ReadEvent where
  /-- These bytes arrive; no bytes mean the end of the file. -/
  | data (bytes : List UInt8)
  /-- The file is at its end for now. -/
  | endOfFile
  | failure (error : IoError)
  deriving DecidableEq, Repr

/-- A reader between two requests. -/
structure Reader where
  pending : List UInt8
  script : List ReadEvent
  deriving DecidableEq, Repr

namespace Reader

/-- Lines of bytes end at the byte of a line feed. -/
def terminator : Terminator UInt8 := ⟨0x0A, 0x0D⟩

/-- The answer for a line that a newline ended. -/
def terminated (line : List UInt8) : Pull :=
  .line (Utf8.decode (terminator.dropReturn line))

/-- The answer for a line that the end of the file ended: an empty one is the end of the stream. -/
def unterminated (line : List UInt8) : Pull :=
  if line.isEmpty then .finished else .line (Utf8.decode line)

/-- Reads one line whose first bytes are `line`. -/
def readLine (line pending : List UInt8) (script : List ReadEvent) : Pull × Reader :=
  match terminator.cutLine? pending with
  | some (first, rest) => (terminated (line ++ first), ⟨rest, script⟩)
  | none =>
    match script with
    | [] => (unterminated (line ++ pending), ⟨[], []⟩)
    | .data [] :: script => (unterminated (line ++ pending), ⟨[], script⟩)
    | .data (b :: bytes) :: script => readLine (line ++ pending) (b :: bytes) script
    | .endOfFile :: script => (unterminated (line ++ pending), ⟨[], script⟩)
    | .failure e :: script =>
      if e.kind = .interrupted then readLine (line ++ pending) [] script
      else (.failure e, ⟨[], script⟩)
termination_by structural script

/-- The answer to the next request, and the reader after it. -/
def next (r : Reader) : Pull × Reader :=
  readLine [] r.pending r.script

/-- How much is left of an event: itself and its bytes. -/
def eventSize : ReadEvent → Nat
  | .data bytes => bytes.length + 1
  | _ => 1

/-- How much is left of a script. -/
def scriptSize : List ReadEvent → Nat
  | [] => 0
  | e :: script => eventSize e + scriptSize script

/-- How much is left of the reader. -/
def size (r : Reader) : Nat :=
  r.pending.length + scriptSize r.script

theorem readLine_size_lt (line pending : List UInt8) (script : List ReadEvent)
    (h : 0 < size ⟨pending, script⟩) :
    (readLine line pending script).2.size < size ⟨pending, script⟩ := by
  fun_induction readLine line pending script with
  | case1 line pending script first rest hc =>
    rw [(terminator.cutLine?_eq_some_iff.1 hc).1]
    simp [size]; omega
  | case2 => simpa [size, scriptSize] using h
  | case3 => simp [size, scriptSize, eventSize]; omega
  | case4 line pending hc b bytes script ih =>
    have := ih (by simp only [size, List.length_cons]; omega)
    simp [size, scriptSize, eventSize] at this ⊢; omega
  | case5 => simp [size, scriptSize, eventSize]; omega
  | case6 line pending hc e script he ih =>
    by_cases h0 : 0 < size ⟨[], script⟩
    · have := ih h0
      simp [size, scriptSize, eventSize] at this ⊢; omega
    · have : script = [] := by
        cases script with
        | nil => rfl
        | cons v script => cases v <;> simp [size, scriptSize, eventSize] at h0
      subst this
      simp [readLine, size, scriptSize, eventSize, Terminator.cutLine?]
  | case7 => simp [size, scriptSize, eventSize]; omega

theorem next_size_lt {r : Reader} (h : 0 < r.size) : r.next.2.size < r.size :=
  readLine_size_lt [] r.pending r.script h

/-- The answers up to the request that uses the reader up. -/
def pulls (r : Reader) : List Pull :=
  if h : 0 < r.size then
    have := next_size_lt h
    let p := r.next
    p.1 :: p.2.pulls
  else []
termination_by r.size

/-- The stream of lines of a reader. -/
def lines (r : Reader) : LineStream :=
  .ofArray r.pulls.toArray

end Reader

end CgroupMembership
