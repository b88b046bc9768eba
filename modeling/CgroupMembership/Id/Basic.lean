import CgroupMembership.Text.Hex
/-!
# Container and pod ids

A container id is a base-16 number of any length, kept in lower case; a pod id is a UUID whose five
groups are all separated, kept as it is written. A value of either type is valid by construction.
`ContainerId.ofText_digits` and `PodId.ofText_text` say that the text of an id is read back as that
id.
-/

namespace CgroupMembership

/-- Why a text is no id. -/
inductive IdError where
  | invalidContainerId (raw : Text)
  | invalidPodId (raw : Text)
  deriving DecidableEq, Repr

/-- The wording of the error, which ends in the refused text. -/
def IdError.message : IdError → Text
  | .invalidContainerId raw => "invalid container id: ".toList ++ raw
  | .invalidPodId raw => "invalid pod id: ".toList ++ raw

/-- The id of a container. -/
structure ContainerId where
  digits : Text
  digits_ne_nil : digits ≠ []
  lower : digits.all Text.isLowerHexDigit = true
  deriving DecidableEq

/-- The id of a pod. -/
structure PodId where
  text : Text
  groups_length : (text.splitOnP Text.isSeparator).map List.length = Text.uuidGroups
  groups_lower : (text.splitOnP Text.isSeparator).all (·.all Text.isLowerHexDigit) = true
  deriving DecidableEq

namespace ContainerId

/-- Reads a container id: one or more base-16 digits of either case, which it folds. -/
def ofText (raw : Text) : Except IdError ContainerId :=
  if h : Text.isHexNumber raw = true then
    have hr : raw ≠ [] ∧ raw.all Text.isHexDigit = true := by simpa [Text.isHexNumber] using h
    .ok ⟨Text.toLower raw, by simp [Text.toLower, hr.1], Text.all_isLowerHexDigit_toLower hr.2⟩
  else .error (.invalidContainerId raw)

@[ext]
theorem ext {a b : ContainerId} (h : a.digits = b.digits) : a = b := by
  cases a; cases b; simp_all

theorem ofText_eq_ok_iff {raw : Text} {id : ContainerId} :
    ofText raw = .ok id ↔ Text.isHexNumber raw = true ∧ id.digits = Text.toLower raw := by
  unfold ofText
  split
  · rename_i h
    simp only [Except.ok.injEq, h, true_and]
    exact ⟨fun e => e ▸ rfl, fun e => ext e.symm⟩
  · simp_all

theorem toOption_ofText_eq_some_iff {raw : Text} {id : ContainerId} :
    (ofText raw).toOption = some id ↔ Text.isHexNumber raw = true ∧ id.digits = Text.toLower raw := by
  rw [← ofText_eq_ok_iff]
  cases ofText raw <;> simp [Except.toOption]

theorem ofText_digits (id : ContainerId) : ofText id.digits = .ok id := by
  have hl := List.all_eq_true.1 id.lower
  exact ofText_eq_ok_iff.2 ⟨Text.isHexNumber_of_lower id.digits_ne_nil hl, (Text.toLower_eq_self hl).symm⟩

end ContainerId

namespace PodId

/-- Reads a pod id: groups of 8, 4, 4, 4 and 12 lowercase base-16 digits between separators. -/
def ofText (raw : Text) : Except IdError PodId :=
  if h : (raw.splitOnP Text.isSeparator).map List.length = Text.uuidGroups ∧
      (raw.splitOnP Text.isSeparator).all (·.all Text.isLowerHexDigit) = true then
    .ok ⟨raw, h.1, h.2⟩
  else .error (.invalidPodId raw)

@[ext]
theorem ext {a b : PodId} (h : a.text = b.text) : a = b := by
  cases a; cases b; simp_all

theorem ofText_text (id : PodId) : ofText id.text = .ok id := by
  simp [ofText, id.groups_length, id.groups_lower]

theorem text_of_ofText {raw : Text} {id : PodId} (h : ofText raw = .ok id) : id.text = raw := by
  unfold ofText at h
  split at h
  · simp only [Except.ok.injEq] at h; exact h ▸ rfl
  · simp at h

end PodId

end CgroupMembership
