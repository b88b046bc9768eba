import CgroupMembership.Text.Basic
/-!
# Quoted strings

The JSON form of a text: a quotation mark, the characters, a quotation mark. A quotation mark, a
backslash and the control characters below U+0020 are escaped, five of those by a letter and the
others by their code point; every other character stands for itself. `control_free_quoted` says that
no control character below U+0020 is left in the quoted form.
-/

namespace CgroupMembership.Text

/-- A lowercase base-16 digit of value `n`, for `n` below 16. -/
def hexDigit (n : Nat) : Char :=
  Nat.digitChar n

/-- What stands for one character between the quotation marks. -/
def escape (c : Char) : Text :=
  if c = '"' then ['\\', '"']
  else if c = '\\' then ['\\', '\\']
  else if c = '\x08' then ['\\', 'b']
  else if c = '\x0c' then ['\\', 'f']
  else if c = '\n' then ['\\', 'n']
  else if c = '\r' then ['\\', 'r']
  else if c = '\t' then ['\\', 't']
  else if c.toNat < 0x20 then
    ['\\', 'u', '0', '0', hexDigit (c.toNat / 16), hexDigit (c.toNat % 16)]
  else [c]

/-- The JSON string of a text. -/
def quoted (t : Text) : Text :=
  '"' :: t.flatMap escape ++ ['"']

theorem control_free_hexDigit {n : Nat} (h : n < 16) : 0x20 ≤ (hexDigit n).toNat := by
  have all : ∀ m : Fin 16, 0x20 ≤ (hexDigit m).toNat := by decide
  exact all ⟨n, h⟩

theorem control_free_escape (c : Char) : ∀ d ∈ escape c, 0x20 ≤ d.toNat := by
  unfold escape
  iterate 7
    split
    · simp
  split
  · rename_i hc
    have high := control_free_hexDigit (n := c.toNat / 16) (by omega)
    have low := control_free_hexDigit (n := c.toNat % 16) (by omega)
    simp only [List.mem_cons, List.not_mem_nil, or_false]
    rintro d (rfl | rfl | rfl | rfl | rfl | rfl)
    · decide
    · decide
    · decide
    · decide
    · exact high
    · exact low
  · rename_i hc
    simp only [List.mem_singleton]
    rintro d rfl
    omega

theorem control_free_quoted (t : Text) : ∀ d ∈ quoted t, 0x20 ≤ d.toNat := by
  intro d hd
  simp only [quoted, List.cons_append, List.mem_cons, List.mem_append, List.mem_flatMap,
    List.not_mem_nil, or_false] at hd
  rcases hd with rfl | ⟨c, -, hc⟩ | rfl
  · decide
  · exact control_free_escape c d hc
  · decide

end CgroupMembership.Text
