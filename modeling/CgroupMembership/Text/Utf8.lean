import CgroupMembership.Text.Basic
/-!
# Bytes read as UTF-8

Every byte sequence is read as some text: a well-formed sequence as its character, and each maximal
ill-formed piece as one replacement character. A piece is ill-formed from the byte that no character
can start with, or that cannot follow the bytes before it; that byte starts the next piece. The
decoder reads one byte at a time, and `run_append` says that a sequence may be cut anywhere as long
as the decoder's state is carried over the cut.
-/

namespace CgroupMembership.Utf8

/-- What stands for an ill-formed piece. -/
def replacement : Char := '\uFFFD'

/-- Where the decoder stands between two bytes. -/
inductive State where
  /-- Between characters. -/
  | start
  /-- Inside a character whose bytes so far carry `value`: `more` bytes follow the next one, which
  must lie between `low` and `high`. -/
  | inside (more low high value : Nat)
  deriving DecidableEq, Repr

/-- Reads a byte that begins a piece: what is known at once, and the state after it. -/
def leading (b : Nat) : Text × State :=
  if b ≤ 0x7F then ([Char.ofNat b], .start)
  else if 0xC2 ≤ b ∧ b ≤ 0xDF then ([], .inside 0 0x80 0xBF (b - 0xC0))
  else if b = 0xE0 then ([], .inside 1 0xA0 0xBF 0)
  else if b = 0xED then ([], .inside 1 0x80 0x9F 0x0D)
  else if 0xE1 ≤ b ∧ b ≤ 0xEF then ([], .inside 1 0x80 0xBF (b - 0xE0))
  else if b = 0xF0 then ([], .inside 2 0x90 0xBF 0)
  else if 0xF1 ≤ b ∧ b ≤ 0xF3 then ([], .inside 2 0x80 0xBF (b - 0xF0))
  else if b = 0xF4 then ([], .inside 2 0x80 0x8F 4)
  else ([replacement], .start)

/-- Reads one byte: the characters it completes, and the state after it. -/
def step : State → Nat → Text × State
  | .start, b => leading b
  | .inside more low high value, b =>
    if low ≤ b ∧ b ≤ high then
      let value := 64 * value + (b - 0x80)
      match more with
      | 0 => ([Char.ofNat value], .start)
      | more + 1 => ([], .inside more 0x80 0xBF value)
    else
      let r := leading b
      (replacement :: r.1, r.2)

/-- Reads all bytes: the characters completed on the way, and the state at the end. -/
def run (s : State) : List UInt8 → Text × State
  | [] => ([], s)
  | b :: bs =>
    let r := step s b.toNat
    let rest := run r.2 bs
    (r.1 ++ rest.1, rest.2)

/-- What the end of the bytes adds: a piece that was not finished is ill-formed. -/
def flush : State → Text
  | .start => []
  | .inside .. => [replacement]

/-- The text of a byte sequence. -/
def decode (bs : List UInt8) : Text :=
  let r := run .start bs
  r.1 ++ flush r.2

theorem run_append (s : State) (a b : List UInt8) :
    run s (a ++ b) = ((run s a).1 ++ (run (run s a).2 b).1, (run (run s a).2 b).2) := by
  induction a generalizing s with
  | nil => simp [run]
  | cons x a ih => simp [run, ih]

end CgroupMembership.Utf8
