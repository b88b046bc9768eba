import CgroupMembership.Proofs.Path.Groups
import CgroupMembership.Proofs.Path.Segments
/-!
# The container ids that paths name

The leaf of a path, without its unit suffix, is divided into what stands before the id and the spelling of the id
(`Division`). A text has one division at most, so it does not matter in what order a search tries its places and
the two forms of an id (`findSome?_tryAt`). `container_named_by_division` says that the id of a path is read off that
division.
-/

namespace CgroupMembership.Path

open Text

/-- The text is the spelling `w` of an id after `y`, and no digit of an id stands directly before the spelling. -/
structure Division (t y w : Text) : Prop where
  eq : t = y ++ w
  clear : ∀ c ∈ y.getLast?, c ∉ lowerHexDigits
  spelling : Grouped .optional [8, 4, 4, 4, 12] w ∨ IsDigits 64 w

theorem endsClear_iff {y : Text} : EndsClear y ↔ ∀ c ∈ y.getLast?, c ∉ lowerHexDigits := by
  simp only [EndsClear, ← isLowerHexDigit_iff, Bool.not_eq_true]

theorem division_iff {t y w : Text} :
    Division t y w ↔ t = y ++ w ∧ EndsClear y ∧ isContainerForm w = true := by
  rw [endsClear_iff, isContainerForm_iff]
  constructor
  · rintro ⟨ht, hy, hw⟩
    exact ⟨ht, hy, hw⟩
  · rintro ⟨ht, hy, hw⟩
    exact ⟨ht, hy, hw⟩

theorem Division.unique {t y w y' w' : Text} (h : Division t y w) (h' : Division t y' w') : y = y' ∧ w = w' := by
  obtain ⟨ht, hy, hw⟩ := division_iff.1 h
  obtain ⟨ht', hy', hw'⟩ := division_iff.1 h'
  exact eq_of_isContainerForm (ht.symm.trans ht') hy hy' hw hw'

/-! ## Searching in another order -/

/-- The two alternatives of a search. -/
inductive Alternative where
  | uuid
  | digits
  deriving DecidableEq

/-- The digit counts of the groups of an alternative. -/
def Alternative.groups : Alternative → List Nat
  | .uuid => uuidGroups
  | .digits => [64]

/-- One try of a search: the rest of the text from a place on, if it has the form of the alternative and no digit
stands before the place. -/
def tryAt (t : Text) (place : Nat × Alternative) : Option Text :=
  if (t.take place.1).getLast?.all (!isLowerHexDigit ·) && fitsGroups .optional place.2.groups (t.drop place.1) then
    some (t.drop place.1)
  else none

theorem isContainerForm_iff_exists {w : Text} :
    isContainerForm w = true ↔ ∃ a : Alternative, fitsGroups .optional a.groups w = true := by
  rw [isContainerForm, Bool.or_eq_true]
  constructor
  · rintro (h | h)
    · exact ⟨.uuid, h⟩
    · exact ⟨.digits, h⟩
  · rintro ⟨_ | _, h⟩
    · exact .inl h
    · exact .inr h

theorem tryAt_eq_some {t w : Text} {place : Nat × Alternative} (h : tryAt t place = some w) :
    finalId? t = some w := by
  simp only [tryAt, Option.ite_none_right_eq_some, Bool.and_eq_true, Option.some.injEq] at h
  obtain ⟨⟨hclear, hfits⟩, rfl⟩ := h
  have hy : EndsClear (t.take place.1) := by simpa [EndsClear, Option.all_eq_true] using hclear
  exact finalId?_eq_some_iff.2 ⟨_, (List.take_append_drop ..).symm, hy, isContainerForm_iff_exists.2 ⟨_, hfits⟩⟩

theorem exists_tryAt {t w : Text} (h : finalId? t = some w) :
    ∃ place : Nat × Alternative, place.1 ≤ t.length ∧ tryAt t place = some w := by
  obtain ⟨y, rfl, hy, hw⟩ := finalId?_eq_some_iff.1 h
  obtain ⟨a, ha⟩ := isContainerForm_iff_exists.1 hw
  have hclear : y.getLast?.all (!isLowerHexDigit ·) = true := by simpa [EndsClear, Option.all_eq_true] using hy
  exact ⟨(y.length, a), by simp, by simp [tryAt, hclear, ha]⟩

/-- A search that tries all places with both alternatives finds the same, whatever it tries first. -/
theorem findSome?_tryAt {t : Text} {tries : List (Nat × Alternative)}
    (hall : ∀ i ≤ t.length, ∀ a : Alternative, (i, a) ∈ tries) : tries.findSome? (tryAt t) = finalId? t := by
  cases h : tries.findSome? (tryAt t) with
  | some w =>
    obtain ⟨place, -, hplace⟩ := List.exists_of_findSome?_eq_some h
    exact (tryAt_eq_some hplace).symm
  | none =>
    cases hid : finalId? t with
    | none => rfl
    | some w =>
      obtain ⟨⟨i, a⟩, hi, hplace⟩ := exists_tryAt hid
      rw [List.findSome?_eq_none_iff.1 h _ (hall i hi a)] at hplace
      exact hplace

/-! ## The id of a path -/

theorem leafId?_eq_some_iff_division {s : Text} {c : ContainerId} :
    leafId? s = some c ↔
      ∃ t y w, WithoutEnding [scopeEnding, sliceEnding] s t ∧ Division t y w ∧ c.digits = dropSeparators w := by
  simp only [leafId?_eq_some_iff, withoutEnding_unit_iff, division_iff]
  constructor
  · rintro ⟨y, w, ht, hy, hw, hc⟩
    exact ⟨_, y, w, rfl, ⟨ht, hy, hw⟩, hc⟩
  · rintro ⟨t, y, w, rfl, ⟨ht, hy, hw⟩, hc⟩
    exact ⟨y, w, ht, hy, hw, hc⟩

/-- A path names the container whose id is spelled at the end of its leaf, in the one division of that. All orders
of search find this spelling, it always is an id, and the other segments have no influence. -/
theorem container_named_by_division :
    (∀ (path : Text) (c : ContainerId), (ids path).1 = some c ↔
      ∃ s t y w, IsLeaf path s ∧ WithoutEnding [".scope".toList, ".slice".toList] s t ∧ Division t y w ∧
        c.digits = dropSeparators w) ∧
    (∀ t y w y' w', Division t y w → Division t y' w' → y = y' ∧ w = w') ∧
    (∀ (t : Text) (tries : List (Nat × Alternative)),
      (∀ i ≤ t.length, ∀ a, (i, a) ∈ tries) → tries.findSome? (tryAt t) = finalId? t) ∧
    (∀ t w, finalId? t = some w →
      ∃ c, ContainerId.ofText (dropSeparators w) = .ok c ∧ c.digits = dropSeparators w) ∧
    ∀ path path', (∀ s, IsLeaf path s ↔ IsLeaf path' s) → (ids path).1 = (ids path').1 := by
  refine ⟨fun path c => ?_, fun t y w y' w' => Division.unique, fun t tries => findSome?_tryAt, ?_, ?_⟩
  · rw [container_eq_some_iff]
    simp only [leafId?_eq_some_iff_division]
    constructor
    · rintro ⟨s, hs, t, y, w, ht, hw, hc⟩
      exact ⟨s, t, y, w, hs, ht, hw, hc⟩
    · rintro ⟨s, t, y, w, hs, ht, hw, hc⟩
      exact ⟨s, hs, t, y, w, ht, hw, hc⟩
  · intro t w h
    exact ofText_dropSeparators (finalId?_suffix h).2
  · intro path path' h
    refine Option.ext fun c => ?_
    simp only [container_eq_some_iff, h]

/-- Slashes after the leaf, a unit suffix, hexadecimal digits before the id, and separators in two places only. -/
theorem container_named_by_division_in_scope :
    let path := "/a.slice//x-ff_01234567-89abcdef_0123456789abcdef.scope//".toList
    ∃ c : ContainerId, c.digits = "0123456789abcdef0123456789abcdef".toList ∧ (ids path).1 = some c := by
  intro path
  let w := "01234567-89abcdef_0123456789abcdef".toList
  let c : ContainerId := ⟨dropSeparators w, by decide, by decide⟩
  have hs : IsLeaf path ("x-ff_".toList ++ w ++ ".scope".toList) :=
    ⟨"/a.slice//".toList, ⟨"//".toList, by decide, by simp⟩, .inr ⟨"/a.slice/".toList, by decide⟩, by decide,
      by decide⟩
  have hclear : EndsClear "x-ff_".toList := by
    intro d hd
    cases show some '_' = some d from hd
    rfl
  have hw : Division ("x-ff_".toList ++ w) "x-ff_".toList w := division_iff.2 ⟨rfl, hclear, by decide⟩
  exact ⟨c, by decide, (container_named_by_division.1 path c).2 ⟨_, _, _, w, hs, .cut _ (by simp), hw, rfl⟩⟩

end CgroupMembership.Path
