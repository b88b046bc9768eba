import CgroupMembership.Id.Tail
import CgroupMembership.Proofs.Text.Cuts
/-!
# What is read at the tail of a line

Which part of a tail is read as an id, for each of the two ways to write one: after the last colon
(`atTail?_of_colon`), and in a tail without a colon between the last hyphen and the last dot
(`atTail?_of_hyphen`).
-/

namespace CgroupMembership

open Text

theorem Text.not_mem_of_isHexNumber {t : Text} {c : Char} (h : isHexNumber t = true) (hc : isHexDigit c = false) :
    c ∉ t := by
  intro hm
  have := (isHexNumber_iff.1 h).2 c hm
  rw [hc] at this
  cases this

theorem Text.dropSeparators_of_isHexNumber {t : Text} (h : isHexNumber t = true) : dropSeparators t = t := by
  refine List.filter_eq_self.2 fun c hc => ?_
  have hyphen : c ≠ '-' := fun e => not_mem_of_isHexNumber h (by decide) (e ▸ hc)
  have underscore : c ≠ '_' := fun e => not_mem_of_isHexNumber h (by decide) (e ▸ hc)
  simp [isSeparator, hyphen, underscore]

namespace ContainerId

theorem atTail?_of_colon {line x cand : Text} (h : afterLast '/' line = x ++ ':' :: cand)
    (hc : ':' ∉ cand) : atTail? line = (ofText cand).toOption := by
  have hb : candidateBounds? (x ++ ':' :: cand) = some (x.length + 1, (x ++ ':' :: cand).length) := by
    rw [candidateBounds?, lastIndexOf?_append_cons x hc]
  have hs : slice (x ++ ':' :: cand) (x.length + 1) (x ++ ':' :: cand).length = cand := by
    rw [slice, List.take_length, ← List.drop_drop, List.drop_left]
    rfl
  simp only [atTail?, h, hb, Option.bind_some, hs]

/-- What may stand before the candidate: nothing, or a text up to a hyphen. -/
def EndsAtHyphen (x : Text) : Prop :=
  x = [] ∨ ∃ y, x = y ++ ['-']

/-- What may follow the candidate in a tail that begins with `front`. -/
def BeginsAtDot (front z : Text) : Prop :=
  (z = [] ∧ '.' ∉ front) ∨ ∃ r, z = '.' :: r ∧ '.' ∉ r ∧ '-' ∉ r

theorem start_of_hyphen {x cand : Text} (hx : EndsAtHyphen x) (hc : '-' ∉ cand) :
    ((lastIndexOf? '-' (x ++ cand)).map (· + 1)).getD 0 = x.length := by
  rcases hx with rfl | ⟨y, rfl⟩
  · rw [List.nil_append, lastIndexOf?_of_not_mem hc]
    rfl
  · rw [List.append_assoc, List.singleton_append, lastIndexOf?_append_cons y hc]
    simp

theorem stop_of_dot {front z : Text} (hz : BeginsAtDot front z) :
    (lastIndexOf? '.' (front ++ z)).getD (front ++ z).length = front.length := by
  rcases hz with ⟨rfl, hf⟩ | ⟨r, rfl, hr, -⟩
  · rw [List.append_nil, lastIndexOf?_of_not_mem hf]
    rfl
  · rw [lastIndexOf?_append_cons front hr]
    rfl

theorem hyphen_not_mem_of_beginsAtDot {front z : Text} (hz : BeginsAtDot front z) : '-' ∉ z := by
  rcases hz with ⟨rfl, -⟩ | ⟨r, rfl, -, hr⟩
  · simp
  · simp [hr]

theorem atTail?_of_hyphen {line x cand z : Text} (h : afterLast '/' line = x ++ cand ++ z)
    (hcolon : ':' ∉ x ++ cand ++ z) (hx : EndsAtHyphen x) (hc : '-' ∉ cand)
    (hz : BeginsAtDot (x ++ cand) z) : atTail? line = (ofText cand).toOption := by
  have hstart : ((lastIndexOf? '-' (x ++ cand ++ z)).map (· + 1)).getD 0 = x.length := by
    rw [List.append_assoc]
    exact start_of_hyphen hx (by simp [hc, hyphen_not_mem_of_beginsAtDot hz])
  have hb : candidateBounds? (x ++ cand ++ z) = some (x.length, (x ++ cand).length) := by
    simp only [candidateBounds?, lastIndexOf?_of_not_mem hcolon, hstart, stop_of_dot hz]
    exact if_pos (by simp)
  have hs : slice (x ++ cand ++ z) x.length (x ++ cand).length = cand := by
    rw [slice, List.take_left, List.drop_left]
  simp only [atTail?, h, hb, Option.bind_some, hs]

end ContainerId

end CgroupMembership
