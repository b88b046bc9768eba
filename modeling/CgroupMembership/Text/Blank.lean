import CgroupMembership.Text.Basic
/-!
# Blank texts

A text is blank when it holds nothing but characters of the Unicode property `White_Space`.
`isBlankChar_of_isWhitespace` says that the property covers the ASCII blanks of `Char.isWhitespace`.
-/

namespace CgroupMembership.Text

/-- The code points of the Unicode property `White_Space`, as inclusive ranges in order. -/
def whiteSpaceRanges : List (Nat × Nat) :=
  [(0x0009, 0x000D), (0x0020, 0x0020), (0x0085, 0x0085), (0x00A0, 0x00A0), (0x1680, 0x1680),
   (0x2000, 0x200A), (0x2028, 0x2029), (0x202F, 0x202F), (0x205F, 0x205F), (0x3000, 0x3000)]

/-- A character of the property `White_Space`. -/
def isBlankChar (c : Char) : Bool :=
  whiteSpaceRanges.any fun r => r.1 ≤ c.toNat && c.toNat ≤ r.2

/-- A text with nothing visible in it; the empty text is blank. -/
def isBlank (t : Text) : Bool :=
  t.all isBlankChar

theorem isBlankChar_of_isWhitespace {c : Char} (h : c.isWhitespace = true) :
    isBlankChar c = true := by
  simp only [Char.isWhitespace, Bool.or_eq_true, decide_eq_true_eq] at h
  rcases h with ((h | h) | h) | h <;> subst h <;> decide

end CgroupMembership.Text
