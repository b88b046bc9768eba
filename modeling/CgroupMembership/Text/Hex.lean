import CgroupMembership.Text.Basic
/-!
# Base-16 digits

Ids are written in base 16. Their canonical form has lowercase digits only, and
`isLowerHexDigit_toLower` says that folding the case of any digit gives a canonical one.
-/

namespace CgroupMembership.Text

/-- A digit of a canonical id. -/
def isLowerHexDigit (c : Char) : Bool :=
  ('0' ≤ c && c ≤ '9') || ('a' ≤ c && c ≤ 'f')

/-- A base-16 digit of either case. -/
def isHexDigit (c : Char) : Bool :=
  isLowerHexDigit c || ('A' ≤ c && c ≤ 'F')

/-- Whether the text has base-16 digits only, and at least one. -/
def isHexNumber (t : Text) : Bool :=
  !t.isEmpty && t.all isHexDigit

/-- The text with the letters `A` to `Z` in lower case; all other characters stay. -/
def toLower (t : Text) : Text :=
  t.map Char.toLower

/-- The digit counts of the five groups of a UUID. -/
def uuidGroups : List Nat :=
  [8, 4, 4, 4, 12]

/-- The two characters that may stand between the groups of a UUID. -/
def isSeparator (c : Char) : Bool :=
  c == '-' || c == '_'

/-- The text with every group separator taken out. -/
def dropSeparators (t : Text) : Text :=
  t.filter fun c => !isSeparator c

theorem isHexDigit_of_isLowerHexDigit {c : Char} (h : isLowerHexDigit c = true) :
    isHexDigit c = true := by
  simp [isHexDigit, h]

theorem toNat_lt_of_isHexDigit {c : Char} (h : isHexDigit c = true) : c.toNat < 128 := by
  simp [isHexDigit, isLowerHexDigit, Char.le_def, UInt32.le_iff_toNat_le] at h
  omega

theorem isLowerHexDigit_toLower {c : Char} (h : isHexDigit c = true) :
    isLowerHexDigit c.toLower = true :=
  forall_ascii (p := fun c => isHexDigit c = true → isLowerHexDigit c.toLower = true) (by decide)
    (toNat_lt_of_isHexDigit h) h

theorem toLower_of_isLowerHexDigit {c : Char} (h : isLowerHexDigit c = true) : c.toLower = c :=
  forall_ascii (p := fun c => isLowerHexDigit c = true → c.toLower = c) (by decide)
    (toNat_lt_of_isHexDigit (isHexDigit_of_isLowerHexDigit h)) h

theorem all_isLowerHexDigit_toLower {t : Text} (h : t.all isHexDigit = true) :
    (toLower t).all isLowerHexDigit = true := by
  simp only [List.all_eq_true, toLower, List.mem_map, forall_exists_index, and_imp,
    forall_apply_eq_imp_iff₂] at h ⊢
  exact fun c hc => isLowerHexDigit_toLower (h c hc)

theorem toLower_eq_self {t : Text} (h : ∀ c ∈ t, isLowerHexDigit c = true) : toLower t = t :=
  (List.map_congr_left fun c hc => toLower_of_isLowerHexDigit (h c hc)).trans (List.map_id _)

theorem isHexNumber_iff {t : Text} : isHexNumber t = true ↔ t ≠ [] ∧ ∀ c ∈ t, isHexDigit c = true := by
  simp [isHexNumber]

theorem isHexNumber_of_lower {t : Text} (hne : t ≠ []) (h : ∀ c ∈ t, isLowerHexDigit c = true) :
    isHexNumber t = true :=
  isHexNumber_iff.2 ⟨hne, fun c hc => isHexDigit_of_isLowerHexDigit (h c hc)⟩

end CgroupMembership.Text
