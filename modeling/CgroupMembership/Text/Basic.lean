/-!
# Texts and how they are cut

A text is a list of characters, so every text that can be read has a value here and every
function on it recurses on the data. The cuts used by the formats of this library are defined
once: around the first or the last occurrence of a character, before a known ending, and before a
run of unwanted characters at the end. `splitFirst?_eq_some_iff`, `splitLast?_eq_some_iff` and
`stripEnding?_eq_some_iff` say that each cut is the only one of its kind.
-/

namespace CgroupMembership

/-- A sequence of Unicode scalar values. -/
abbrev Text := List Char

namespace Text

/-- The texts before and after the first `sep`. -/
def splitFirst? (sep : Char) : Text → Option (Text × Text)
  | [] => none
  | c :: t => if c = sep then some ([], t) else (splitFirst? sep t).map fun p => (c :: p.1, p.2)

/-- The texts before and after the last `sep`. -/
def splitLast? (sep : Char) : Text → Option (Text × Text)
  | [] => none
  | c :: t =>
    match splitLast? sep t with
    | some p => some (c :: p.1, p.2)
    | none => if c = sep then some ([], t) else none

/-- What follows the last `sep`: the whole text when it has none. -/
def afterLast (sep : Char) (t : Text) : Text :=
  ((splitLast? sep t).map Prod.snd).getD t

/-- The position of the last `sep`. -/
def lastIndexOf? (sep : Char) (t : Text) : Option Nat :=
  (splitLast? sep t).map fun p => p.1.length

/-- The characters from position `start` up to, but not including, position `stop`. -/
def slice (t : Text) (start stop : Nat) : Text :=
  (t.take stop).drop start

/-- What is left of `t` before the ending `e`. -/
def stripEnding? (e t : Text) : Option Text :=
  if e.isSuffixOf t then some (t.take (t.length - e.length)) else none

/-- Drops the run of characters in `p` at the end. -/
def trimEnd (p : Char → Bool) (t : Text) : Text :=
  (t.reverse.dropWhile p).reverse

/-- The number of bytes of a text in UTF-8. -/
def byteLength : Text → Nat
  | [] => 0
  | c :: t => c.utf8Size + byteLength t

/-! ## Each cut is unique -/

theorem splitFirst?_eq_none_iff {sep : Char} {t : Text} : splitFirst? sep t = none ↔ sep ∉ t := by
  induction t with
  | nil => simp [splitFirst?]
  | cons c t ih => by_cases h : c = sep <;> simp [splitFirst?, h, ih, eq_comm (a := sep)]

theorem splitFirst?_eq_some_iff {sep : Char} {t a b : Text} :
    splitFirst? sep t = some (a, b) ↔ t = a ++ sep :: b ∧ sep ∉ a := by
  induction t generalizing a with
  | nil => simp [splitFirst?]
  | cons c t ih =>
    by_cases h : c = sep
    · cases a with
      | nil => simp [splitFirst?, h]
      | cons d a => simp [splitFirst?, h]; grind
    · cases a with
      | nil => simp [splitFirst?, h]
      | cons d a => simp [splitFirst?, h, ih]; grind

theorem splitLast?_eq_none_iff {sep : Char} {t : Text} : splitLast? sep t = none ↔ sep ∉ t := by
  induction t with
  | nil => simp [splitLast?]
  | cons c t ih =>
    cases h : splitLast? sep t with
    | none => simp [splitLast?, h, ih.1 h, eq_comm]
    | some p => simp [splitLast?, h]; grind

theorem splitLast?_eq_some_iff {sep : Char} {t a b : Text} :
    splitLast? sep t = some (a, b) ↔ t = a ++ sep :: b ∧ sep ∉ b := by
  induction t generalizing a with
  | nil => simp [splitLast?]
  | cons c t ih =>
    cases h : splitLast? sep t with
    | none =>
      have hn := splitLast?_eq_none_iff.1 h
      cases a <;> simp [splitLast?, h] <;> grind
    | some p =>
      have hs : sep ∈ t := Classical.byContradiction fun hn => by
        simp [splitLast?_eq_none_iff.2 hn] at h
      cases a <;> simp [splitLast?, h] <;> grind

theorem stripEnding?_eq_some_iff {e t u : Text} : stripEnding? e t = some u ↔ t = u ++ e := by
  unfold stripEnding?
  split
  · rename_i h
    obtain ⟨v, rfl⟩ := List.isSuffixOf_iff_suffix.1 h
    simp [eq_comm]
  · rename_i h
    simp only [reduceCtorEq, false_iff]
    rintro rfl
    exact h (List.isSuffixOf_iff_suffix.2 (List.suffix_append ..))

theorem exists_eq_trimEnd_append (p : Char → Bool) (t : Text) :
    ∃ s, t = trimEnd p t ++ s ∧ s.all p = true := by
  refine ⟨(t.reverse.takeWhile p).reverse, ?_, ?_⟩
  · rw [trimEnd, ← List.reverse_append, List.takeWhile_append_dropWhile, List.reverse_reverse]
  · simp

/-- What holds of the first 128 code points holds of every ASCII character. -/
theorem forall_ascii {p : Char → Prop} (h : ∀ n : Fin 128, p (Char.ofNat n)) {c : Char} (hc : c.toNat < 128) :
    p c := by
  simpa using h ⟨c.toNat, hc⟩

end Text

end CgroupMembership
