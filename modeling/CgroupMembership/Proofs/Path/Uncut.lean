import CgroupMembership.Proofs.Id.Tail
import CgroupMembership.Proofs.Path.Container
/-!
# Container ids that are the end of a longer number

In a path any character but a lowercase base-16 digit may stand before a container id. At the tail of a line the
letters `A` to `F` are digits of an id too, so after one of them the id of a path is the end of a longer number.
`uncut_iff` says that this is the only way in which the id of a path is cut from a number (`Uncut`), and
`not_uncut_after_upper_case` shows a path with such an id.
-/

namespace CgroupMembership

open Text

theorem Text.mem_upper_iff {c : Char} :
    c ∈ "ABCDEF".toList ↔ isHexDigit c = true ∧ isLowerHexDigit c = false := by
  constructor
  · intro h
    have all : "ABCDEF".toList.all (fun c => isHexDigit c && !isLowerHexDigit c) = true := by decide
    simpa using List.all_eq_true.1 all c h
  · rintro ⟨hhex, hlower⟩
    exact forall_ascii
      (p := fun c => isHexDigit c = true → isLowerHexDigit c = false → c ∈ "ABCDEF".toList)
      (by decide) (toNat_lt_of_isHexDigit hhex) hhex hlower

/-- A tail that is a number is read as a whole. -/
theorem ContainerId.atTail?_of_isHexNumber {line s : Text} (hs : IsTail line s) (hhex : isHexNumber s = true) :
    ∃ c, atTail? line = some c ∧ c.digits = toLower s := by
  obtain rfl := isTail_iff.1 hs
  have hoffers : Offers (afterLast '/' line) (afterLast '/' line) :=
    .hyphen [] [] (not_mem_of_isHexNumber hhex (by decide)) (by simp) (.inl rfl)
      (.inl ⟨rfl, not_mem_of_isHexNumber hhex (by decide)⟩)
  have hall : (afterLast '/' line).all isHexDigit = true := (Bool.and_eq_true_iff.1 hhex).2
  let c : ContainerId := ⟨toLower (afterLast '/' line),
    by simpa [toLower] using (isHexNumber_iff.1 hhex).1, all_isLowerHexDigit_toLower hall⟩
  exact ⟨c, atTail?_eq_some_iff.2 ⟨_, hhex, hoffers, rfl⟩, rfl⟩

namespace Path

variable {path s t y w : Text} {c : ContainerId}

/-- The id of the path is no end of a longer number: no base-16 digit of either case stands before its spelling, and if
the leaf is a number, it is what a line with that tail is read as. -/
structure Uncut (path : Text) : Prop where
  before : ∀ s t y w, IsLeaf path s → WithoutEnding [".scope".toList, ".slice".toList] s t → t = y ++ w →
    finalId? t = some w → ∀ d ∈ y.getLast?, isHexDigit d = false
  whole : ∀ s line, IsLeaf path s → (∀ d ∈ s, isHexDigit d = true) → ContainerId.IsTail line s →
    (ids path).1 = none ∨ (ids path).1 = ContainerId.atTail? line

/-- The leaf of the path, without its unit suffix, ends in an upper case digit and the spelling `w` of an id. -/
def UpperCaseBefore (path w : Text) : Prop :=
  ∃ s t y d, IsLeaf path s ∧ WithoutEnding [".scope".toList, ".slice".toList] s t ∧ t = y ++ d :: w ∧
    d ∈ "ABCDEF".toList ∧ (Grouped .optional [8, 4, 4, 4, 12] w ∨ IsDigits 64 w)

theorem finalId?_eq_some_iff_division : finalId? t = some w ↔ ∃ y, Division t y w := by
  simp only [finalId?_eq_some_iff, division_iff]

theorem division_of_upper_case {d : Char} (hd : d ∈ "ABCDEF".toList)
    (hw : Grouped .optional [8, 4, 4, 4, 12] w ∨ IsDigits 64 w) : Division (y ++ d :: w) (y ++ [d]) w where
  eq := by simp
  clear := by
    have hclear : EndsClear (y ++ [d]) := by
      intro c hc
      simp only [List.getLast?_concat, Option.mem_some_iff] at hc
      exact hc ▸ (mem_upper_iff.1 hd).2
    exact endsClear_iff.1 hclear
  spelling := hw

theorem UpperCaseBefore.exists_id (h : UpperCaseBefore path w) :
    ∃ c, (ids path).1 = some c ∧ c.digits = dropSeparators w := by
  obtain ⟨s, t, y, d, hs, ht, rfl, hd, hw⟩ := h
  have hdivision := division_of_upper_case (y := y) hd hw
  obtain ⟨c, -, hc⟩ := ofText_dropSeparators (isContainerForm_iff.2 hw)
  exact ⟨c, container_eq_some_iff.2 ⟨s, hs, leafId?_eq_some_iff_division.2 ⟨_, _, w, ht, hdivision, hc⟩⟩, hc⟩

/-- A digit before the id that is not in lower case is in upper case. -/
theorem digit_before_eq (h : ¬∃ w, UpperCaseBefore path w) (hs : IsLeaf path s)
    (ht : WithoutEnding [".scope".toList, ".slice".toList] s t) (hw : Division t y w) :
    ∀ d ∈ y.getLast?, isHexDigit d = false := by
  intro d hd
  have hlower : isLowerHexDigit d = false := endsClear_iff.2 hw.clear d hd
  rw [Bool.eq_false_iff]
  intro hhex
  obtain ⟨front, rfl⟩ := List.getLast?_eq_some_iff.1 hd
  exact h ⟨w, s, t, front, d, hs, ht, by simp [hw.eq], mem_upper_iff.2 ⟨hhex, hlower⟩, hw.spelling⟩

theorem withoutEnding_of_isHexNumber (hhex : isHexNumber s = true)
    (ht : WithoutEnding [".scope".toList, ".slice".toList] s t) : t = s := by
  have hdot : '.' ∉ s := not_mem_of_isHexNumber hhex (by decide)
  rw [← withoutEnding_unit_iff.1 ht]
  exact stripUnit_eq_self (stripEnding?_eq_none_of_dotless (by decide) hdot)
    (stripEnding?_eq_none_of_dotless (by decide) hdot)

/-- A leaf that is a number and has nothing cut off is itself the id. -/
theorem digits_eq_toLower (h : ¬∃ w, UpperCaseBefore path w) (hs : IsLeaf path s) (hhex : isHexNumber s = true)
    (hc : leafId? s = some c) : c.digits = toLower s := by
  obtain ⟨t, y, w, ht, hw, hdigits⟩ := leafId?_eq_some_iff_division.1 hc
  have hbefore := digit_before_eq h hs ht hw
  obtain rfl := withoutEnding_of_isHexNumber hhex ht
  obtain rfl : y = [] := by
    rcases y.eq_nil_or_concat with hy | ⟨front, d, rfl⟩
    · exact hy
    · have hd : isHexDigit d = true := (isHexNumber_iff.1 hhex).2 d (by simp [hw.eq])
      rw [hbefore d (by simp)] at hd
      cases hd
  obtain rfl : t = w := hw.eq
  rw [dropSeparators_of_isHexNumber hhex] at hdigits
  rw [← hdigits]
  exact (toLower_eq_self (List.all_eq_true.1 c.lower)).symm

/-- The id of a path is cut from a longer number exactly if an upper case digit stands before it. Then the path is
read as the id without that digit. -/
theorem uncut_iff (path : Text) :
    (Uncut path ↔ ¬∃ w, UpperCaseBefore path w) ∧
      ∀ w, UpperCaseBefore path w → ∃ c, (ids path).1 = some c ∧ c.digits = dropSeparators w := by
  refine ⟨⟨?_, fun h => ⟨?_, ?_⟩⟩, fun w => UpperCaseBefore.exists_id⟩
  · rintro h ⟨w, s, t, y, d, hs, ht, rfl, hd, hw⟩
    have hid := finalId?_eq_some_iff_division.2 ⟨_, division_of_upper_case (y := y) hd hw⟩
    have hfalse := h.before s _ (y ++ [d]) w hs ht (by simp) hid d (by simp)
    rw [(mem_upper_iff.1 hd).1] at hfalse
    cases hfalse
  · intro s t y w hs ht heq hid
    obtain ⟨y', hw⟩ := finalId?_eq_some_iff_division.1 hid
    obtain rfl := List.append_cancel_right (heq.symm.trans hw.eq)
    exact digit_before_eq h hs ht hw
  · intro s line hs hall htail
    have hne : s ≠ [] := by
      obtain ⟨front, hends⟩ := hs
      exact hends.ne_nil
    have hhex : isHexNumber s = true := isHexNumber_iff.2 ⟨hne, hall⟩
    cases hc : (ids path).1 with
    | none => exact .inl rfl
    | some c =>
      obtain ⟨s', hs', hleaf⟩ := container_eq_some_iff.1 hc
      obtain rfl : s = s' := Option.some.inj ((isLeaf_iff.1 hs).symm.trans (isLeaf_iff.1 hs'))
      obtain ⟨c', hread, hc'⟩ := ContainerId.atTail?_of_isHexNumber htail hhex
      rw [hread, ContainerId.ext ((digits_eq_toLower h hs hhex hleaf).trans hc'.symm)]
      exact .inr rfl

/-- An id of 64 digits after the digit `A`: the path names the id, and the tail of a line is read as 65 digits. -/
theorem not_uncut_after_upper_case :
    let digits := "0123456789abcdef0123456789abcdef0123456789abcdef0123456789abcdef".toList
    let path := "/docker/A".toList ++ digits
    ∃ c c' : ContainerId, (ids path).1 = some c ∧ c.digits = digits ∧
      ContainerId.atTail? path = some c' ∧ c'.digits = 'a' :: digits ∧ ¬Uncut path := by
  intro digits path
  let c : ContainerId := ⟨digits, by decide, by decide⟩
  let c' : ContainerId := ⟨'a' :: digits, by decide, by decide⟩
  have hc : (ids path).1 = some c := by decide
  have hc' : ContainerId.atTail? path = some c' := by decide
  refine ⟨c, c', hc, rfl, hc', rfl, fun h => ?_⟩
  have hs : IsLeaf path ('A' :: digits) :=
    ⟨"/docker/".toList, ⟨[], by decide, by simp⟩, .inr ⟨"/docker".toList, by decide⟩, by decide, by decide⟩
  have htail : ContainerId.IsTail path ('A' :: digits) := ⟨by decide, .inr ⟨"/docker".toList, by decide⟩⟩
  rcases h.whole _ path hs (isHexNumber_iff.1 (by decide)).2 htail with hnone | hsame
  · rw [hc] at hnone
    cases hnone
  · rw [hc, hc'] at hsame
    exact absurd hsame (by decide)

end Path

end CgroupMembership
