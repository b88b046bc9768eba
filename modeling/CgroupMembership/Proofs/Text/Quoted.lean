import CgroupMembership.Text.Quoted
/-!
# Quoted strings are self-delimiting

What stands for a character between quotation marks begins with no quotation mark and can be read back,
whatever follows it (`unescape?_escape`). So a quoted text determines its characters and its own end in
any longer text (`eq_of_quoted_append`).
-/

namespace CgroupMembership.Text

/-- The value of a lowercase base-16 digit. -/
def hexValue (c : Char) : Nat :=
  if c.isDigit then c.toNat - '0'.toNat else c.toNat - 'a'.toNat + 10

/-- The character that a letter after a backslash stands for. -/
def unescapeLetter (c : Char) : Char :=
  if c = 'b' then '\x08'
  else if c = 'f' then '\x0c'
  else if c = 'n' then '\n'
  else if c = 'r' then '\r'
  else if c = 't' then '\t'
  else c

/-- Reads the first character between quotation marks, and what follows it. -/
def unescape? : Text → Option (Char × Text)
  | [] => none
  | c :: t =>
    if c = '\\' then
      match t with
      | 'u' :: '0' :: '0' :: high :: low :: t => some (Char.ofNat (16 * hexValue high + hexValue low), t)
      | letter :: t => some (unescapeLetter letter, t)
      | [] => none
    else some (c, t)

theorem hexValue_hexDigit {n : Nat} (h : n < 16) : hexValue (hexDigit n) = n := by
  have all : ∀ m : Fin 16, hexValue (hexDigit m) = m := by decide
  exact all ⟨n, h⟩

theorem unescape?_escape (c : Char) (t : Text) : unescape? (escape c ++ t) = some (c, t) := by
  unfold escape
  iterate 7
    split
    · subst c
      rfl
  split
  · rename_i hc
    have high := hexValue_hexDigit (n := c.toNat / 16) (by omega)
    have low := hexValue_hexDigit (n := c.toNat % 16) (by omega)
    have hn : 16 * (c.toNat / 16) + c.toNat % 16 = c.toNat := by omega
    simp [unescape?, high, low, hn]
  · simp_all [unescape?]

theorem eq_of_escape_append {c d : Char} {s t : Text} (h : escape c ++ s = escape d ++ t) :
    c = d ∧ s = t := by
  have hread := congrArg unescape? h
  rw [unescape?_escape, unescape?_escape] at hread
  simpa using hread

theorem head_escape (c : Char) : ∃ d u, escape c = d :: u ∧ d ≠ '"' := by
  unfold escape
  iterate 8
    split
    · exact ⟨_, _, rfl, by decide⟩
  exact ⟨c, [], rfl, by assumption⟩

theorem escape_append_ne (c : Char) (s t : Text) : escape c ++ s ≠ '"' :: t := by
  obtain ⟨d, u, hu, hd⟩ := head_escape c
  rw [hu]
  intro h
  exact hd (List.cons.inj h).1

theorem quoted_append (t s : Text) : quoted t ++ s = '"' :: (t.flatMap escape ++ '"' :: s) := by
  simp [quoted]

theorem eq_of_quoted_append {a b s t : Text} (h : quoted a ++ s = quoted b ++ t) : a = b ∧ s = t := by
  rw [quoted_append, quoted_append] at h
  replace h := (List.cons.inj h).2
  induction a generalizing b with
  | nil =>
    cases b with
    | nil => exact ⟨rfl, (List.cons.inj h).2⟩
    | cons d b =>
      rw [List.flatMap_cons, List.append_assoc] at h
      exact absurd h.symm (escape_append_ne d _ _)
  | cons c a ih =>
    rw [List.flatMap_cons, List.append_assoc] at h
    cases b with
    | nil => exact absurd h (escape_append_ne c _ _)
    | cons d b =>
      rw [List.flatMap_cons, List.append_assoc] at h
      obtain ⟨rfl, hrest⟩ := eq_of_escape_append h
      obtain ⟨rfl, hst⟩ := ih hrest
      exact ⟨rfl, hst⟩

theorem quoted_injective : Function.Injective quoted := by
  intro a b h
  have h' : quoted a ++ [] = quoted b ++ [] := by rw [h]
  exact (eq_of_quoted_append h').1

end CgroupMembership.Text
