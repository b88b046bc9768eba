import CgroupMembership.Text.Hex
/-!
# Digit groups at the end of a segment

A segment may end in an id: groups of lowercase base-16 digits with separators between them, which
are demanded or merely allowed. `finalId?` looks for a container id, from the left, at every place
that no digit stands directly before; `finalPodId?` looks for a pod id after the letters `pod`.
`finalId?_suffix` and `finalPodId?_suffix` say that what is found is the end of the segment.
-/

namespace CgroupMembership.Path

/-- Whether a separator has to stand between two groups. -/
inductive Separation where
  | required
  | optional
  deriving DecidableEq, Repr

/-- What follows the first `n` characters, if all of them are lowercase base-16 digits. -/
def afterDigits? : Nat → Text → Option Text
  | 0, t => some t
  | _ + 1, [] => none
  | n + 1, c :: t => if Text.isLowerHexDigit c then afterDigits? n t else none

/-- What follows the place between two groups. -/
def afterSeparator? (s : Separation) : Text → Option Text
  | [] => if s = .optional then some [] else none
  | c :: t =>
    if Text.isSeparator c then some t else if s = .optional then some (c :: t) else none

/-- Whether the text consists of groups with these digit counts. -/
def fitsGroups (s : Separation) : List Nat → Text → Bool
  | [], t => t.isEmpty
  | [n], t => (afterDigits? n t).any (·.isEmpty)
  | n :: m :: ns, t =>
    match (afterDigits? n t).bind (afterSeparator? s) with
    | some rest => fitsGroups s (m :: ns) rest
    | none => false

/-- Whether the text is a container id as a path writes it: a UUID with or without its separators,
or 64 digits. -/
def isContainerForm (t : Text) : Bool :=
  fitsGroups .optional Text.uuidGroups t || fitsGroups .optional [64] t

/-- Whether the text is a pod id as a path writes it: a UUID with all its separators. -/
def isPodForm (t : Text) : Bool :=
  fitsGroups .required Text.uuidGroups t

/-- The longest end of the text in container form whose first character has no digit before it;
`bounded` says that of the first character of the text. -/
def finalIdFrom? (bounded : Bool) : Text → Option Text
  | [] => none
  | c :: t =>
    if bounded && isContainerForm (c :: t) then some (c :: t)
    else finalIdFrom? (!Text.isLowerHexDigit c) t

/-- The end of a segment that is a container id, with its separators. -/
def finalId? (segment : Text) : Option Text :=
  finalIdFrom? true segment

/-- The letters that announce a pod id. -/
def podMark : Text := "pod".toList

/-- The end of a segment that follows the first `pod` after which the rest is a pod id. -/
def finalPodId? : Text → Option Text
  | [] => none
  | c :: t =>
    if podMark.isPrefixOf (c :: t) && isPodForm ((c :: t).drop podMark.length) then
      some ((c :: t).drop podMark.length)
    else finalPodId? t

theorem finalIdFrom?_suffix {bounded : Bool} {t w : Text} (h : finalIdFrom? bounded t = some w) :
    w <:+ t ∧ isContainerForm w = true := by
  induction t generalizing bounded with
  | nil => simp [finalIdFrom?] at h
  | cons c t ih =>
    unfold finalIdFrom? at h
    split at h
    · simp_all
    · exact ⟨(ih h).1.trans (List.suffix_cons ..), (ih h).2⟩

theorem finalId?_suffix {t w : Text} (h : finalId? t = some w) :
    w <:+ t ∧ isContainerForm w = true :=
  finalIdFrom?_suffix h

theorem finalPodId?_suffix {t w : Text} (h : finalPodId? t = some w) :
    podMark ++ w <:+ t ∧ isPodForm w = true := by
  induction t with
  | nil => simp [finalPodId?] at h
  | cons c t ih =>
    unfold finalPodId? at h
    split at h
    · rename_i hc
      obtain ⟨rest, hr⟩ := List.isPrefixOf_iff_prefix.1 (Bool.and_eq_true_iff.1 hc).1
      rw [← hr, List.drop_left, Option.some.injEq] at h
      rw [← hr, List.drop_left, h] at hc
      exact ⟨hr ▸ h ▸ List.suffix_refl _, (Bool.and_eq_true_iff.1 hc).2⟩
    · exact ⟨(ih h).1.trans (List.suffix_cons ..), (ih h).2⟩

end CgroupMembership.Path
