import CgroupMembership.Text.Basic
/-!
# Unsigned decimal numbers

A number is written without a sign and without leading zeros, and read with any number of them.
`readDecimal?_writeDecimal` says that a written number reads back.
-/

namespace CgroupMembership.Text

/-- The shortest decimal digits of `n`. -/
def writeDecimal (n : Nat) : Text :=
  Nat.toDigits 10 n

/-- The value of a text of one or more ASCII digits. -/
def readDecimal? (t : Text) : Option Nat :=
  if !t.isEmpty && t.all Char.isDigit then some (Nat.ofDigitChars 10 t 0) else none

/-- The value of a text of ASCII digits, if it fits in 64 bits. -/
def readWord? (t : Text) : Option UInt64 :=
  (readDecimal? t).bind fun n => if h : n < UInt64.size then some (UInt64.ofNatLT n h) else none

theorem readDecimal?_writeDecimal (n : Nat) : readDecimal? (writeDecimal n) = some n := by
  have hne : Nat.toDigits 10 n ≠ [] := Nat.toDigits_ne_nil
  have hd : (Nat.toDigits 10 n).all Char.isDigit = true := by
    simp only [List.all_eq_true]
    exact fun c hc => Nat.isDigit_of_mem_toDigits (by omega) (by omega) hc
  simp [readDecimal?, writeDecimal, hne, hd, Nat.ofDigitChars_toDigits]

theorem readWord?_writeDecimal (w : UInt64) : readWord? (writeDecimal w.toNat) = some w := by
  have h : w.toNat < UInt64.size := w.toNat_lt_size
  simp only [readWord?, readDecimal?_writeDecimal, Option.bind_some, h, ↓reduceDIte, Option.some.injEq]
  exact UInt64.toNat_inj.1 (by simp)

end CgroupMembership.Text
