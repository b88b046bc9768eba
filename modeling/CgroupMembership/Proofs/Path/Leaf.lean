import CgroupMembership.Path.Ids
import CgroupMembership.Proofs.Path.Match
import CgroupMembership.Proofs.Text.Cuts
/-!
# The container id of a path

The container id of a path is that of its last segment without a unit suffix
(`container_of_afterLast`), and that is the digits of the one container form at its end
(`leafId?_eq_some_iff`).
-/

namespace CgroupMembership.Path

open Text

/-! ## Unit suffixes -/

/-- What the name of a unit may end in, none included. -/
def unitEndings : List Text := [[], scopeEnding, sliceEnding]

theorem mem_unitEndings_iff {e : Text} : e ∈ unitEndings ↔ e = [] ∨ e = scopeEnding ∨ e = sliceEnding := by
  simp [unitEndings]

theorem stripEnding?_eq_none_iff {e t : Text} : stripEnding? e t = none ↔ ¬e <:+ t := by
  rw [Option.eq_none_iff_forall_ne_some]
  constructor
  · rintro h ⟨u, hu⟩
    exact h u (stripEnding?_eq_some_iff.2 hu.symm)
  · rintro h u hu
    exact h ⟨u, (stripEnding?_eq_some_iff.1 hu).symm⟩

theorem stripEnding?_eq_none_of_dotless {e t : Text} (he : '.' ∈ e) (ht : '.' ∉ t) :
    stripEnding? e t = none := by
  rw [stripEnding?_eq_none_iff]
  rintro ⟨u, rfl⟩
  exact ht (List.mem_append_right u he)

theorem stripUnit_scope (u : Text) : stripUnit (u ++ scopeEnding) = u := by
  rw [stripUnit, stripEnding?_eq_some_iff.2 rfl]

theorem stripUnit_slice (u : Text) : stripUnit (u ++ sliceEnding) = u := by
  -- No text has both endings, as they are equally long.
  have hs : stripEnding? scopeEnding (u ++ sliceEnding) = none := by
    rw [stripEnding?_eq_none_iff]
    rintro ⟨v, hv⟩
    exact absurd (List.append_inj' hv (by decide)).2 (by decide)
  rw [stripUnit, hs, stripEnding?_eq_some_iff.2 rfl]
  rfl

theorem stripUnit_eq_self {t : Text} (hscope : stripEnding? scopeEnding t = none)
    (hslice : stripEnding? sliceEnding t = none) : stripUnit t = t := by
  rw [stripUnit, hscope, hslice]
  rfl

theorem stripUnit_append {u e : Text} (he : e ∈ unitEndings) (hu : '.' ∉ u) :
    stripUnit (u ++ e) = u := by
  rcases mem_unitEndings_iff.1 he with rfl | rfl | rfl
  · rw [List.append_nil]
    exact stripUnit_eq_self (stripEnding?_eq_none_of_dotless (by decide) hu)
      (stripEnding?_eq_none_of_dotless (by decide) hu)
  · exact stripUnit_scope u
  · exact stripUnit_slice u

/-- A name and what it is without one of these endings: the name itself if it has none of them. -/
inductive WithoutEnding (endings : List Text) : Text → Text → Prop
  | cut (t : Text) {e : Text} (he : e ∈ endings) : WithoutEnding endings (t ++ e) t
  | bare {t : Text} (h : ∀ e ∈ endings, ¬e <:+ t) : WithoutEnding endings t t

theorem withoutEnding_unit_iff {s t : Text} :
    WithoutEnding [scopeEnding, sliceEnding] s t ↔ stripUnit s = t := by
  constructor
  · rintro (⟨t, he⟩ | h)
    · simp only [List.mem_cons, List.not_mem_nil, or_false] at he
      rcases he with rfl | rfl
      · exact stripUnit_scope t
      · exact stripUnit_slice t
    · exact stripUnit_eq_self (stripEnding?_eq_none_iff.2 (h _ (by simp)))
        (stripEnding?_eq_none_iff.2 (h _ (by simp)))
  · rintro rfl
    cases hscope : stripEnding? scopeEnding s with
    | some t =>
      obtain rfl := stripEnding?_eq_some_iff.1 hscope
      rw [stripUnit_scope]
      exact .cut t (by simp)
    | none =>
      cases hslice : stripEnding? sliceEnding s with
      | some t =>
        obtain rfl := stripEnding?_eq_some_iff.1 hslice
        rw [stripUnit_slice]
        exact .cut t (by simp)
      | none =>
        rw [stripUnit_eq_self hscope hslice]
        refine .bare ?_
        simp [← stripEnding?_eq_none_iff, hscope, hslice]

theorem withoutEnding_singleton_iff {e s t : Text} :
    WithoutEnding [e] s t ↔ (stripEnding? e s).getD s = t := by
  constructor
  · rintro (⟨t, he⟩ | h)
    · rw [List.mem_singleton.1 he, stripEnding?_eq_some_iff.2 rfl]
      rfl
    · rw [stripEnding?_eq_none_iff.2 (h e (by simp))]
      rfl
  · rintro rfl
    cases h : stripEnding? e s with
    | some t =>
      obtain rfl := stripEnding?_eq_some_iff.1 h
      exact .cut t (by simp)
    | none => exact .bare (by simpa [← stripEnding?_eq_none_iff] using h)

/-! ## The id of a leaf -/

/-- The digits of a container form are always an id. -/
theorem ofText_dropSeparators {w : Text} (hw : isContainerForm w = true) :
    ∃ i : ContainerId, ContainerId.ofText (dropSeparators w) = .ok i ∧ i.digits = dropSeparators w := by
  obtain ⟨hn, hall⟩ := digits_of_isContainerForm hw
  have hl : ∀ c ∈ dropSeparators w, isLowerHexDigit c = true := by
    intro c hc
    obtain ⟨hc, hs⟩ := List.mem_filter.1 hc
    simpa [show isSeparator c = false by simpa using hs] using hall c hc
  have hne : dropSeparators w ≠ [] := fun h0 => by simp [h0] at hn
  let i : ContainerId := ⟨dropSeparators w, hne, List.all_eq_true.2 hl⟩
  exact ⟨i, i.ofText_digits, rfl⟩

theorem leafId?_eq_some_iff {leaf : Text} {i : ContainerId} :
    leafId? leaf = some i ↔
      ∃ y w, stripUnit leaf = y ++ w ∧ EndsClear y ∧ isContainerForm w = true ∧
        i.digits = dropSeparators w := by
  have read : ∀ {w : Text}, isContainerForm w = true →
      ((ContainerId.ofText (dropSeparators w)).toOption = some i ↔ i.digits = dropSeparators w) := by
    intro w hw
    obtain ⟨j, hj, hd⟩ := ofText_dropSeparators hw
    rw [hj, ← hd, Except.toOption, Option.some.injEq, eq_comm, ContainerId.ext_iff]
  simp only [leafId?, Option.bind_eq_some_iff, finalId?_eq_some_iff]
  constructor
  · rintro ⟨w, ⟨y, hy, hclear, hw⟩, hi⟩
    exact ⟨y, w, hy, hclear, hw, (read hw).1 hi⟩
  · rintro ⟨y, w, hy, hclear, hw, hi⟩
    exact ⟨w, ⟨y, hy, hclear, hw⟩, (read hw).2 hi⟩

/-! ## Segments -/

theorem segments_append_slash (a b : Text) : segments (a ++ '/' :: b) = segments a ++ segments b := by
  simp [segments, List.splitOn_append_cons_self]

theorem segments_of_not_mem {t : Text} (h : '/' ∉ t) (hne : t ≠ []) : segments t = [t] := by
  simp [segments, List.splitOn_eq_singleton h, hne]

theorem ids_container (p : Text) : (ids p).1 = (segments p).getLast?.bind leafId? := by
  rw [ids, ← List.head?_reverse]
  rcases (segments p).reverse with _ | ⟨leaf, _ | ⟨parent, rest⟩⟩
  all_goals rfl

theorem afterLast_ne_nil {p : Text} (h : '/' ∈ p) (hlast : p.getLast? ≠ some '/') :
    afterLast '/' p ≠ [] := by
  intro h0
  obtain ⟨a, ha⟩ := exists_eq_append_afterLast h
  rw [h0] at ha
  exact hlast (by rw [ha]; simp)

/-- In a path that ends in a segment, what follows the last slash names the container. -/
theorem container_of_afterLast {p : Text} (h : '/' ∈ p) (hlast : p.getLast? ≠ some '/') :
    (ids p).1 = leafId? (afterLast '/' p) := by
  obtain ⟨a, ha⟩ := exists_eq_append_afterLast h
  have hs : segments p = segments a ++ [afterLast '/' p] :=
    calc segments p = segments (a ++ '/' :: afterLast '/' p) := congrArg segments ha
      _ = segments a ++ segments (afterLast '/' p) := segments_append_slash ..
      _ = segments a ++ [afterLast '/' p] := by
        rw [segments_of_not_mem (not_mem_afterLast '/' p) (afterLast_ne_nil h hlast)]
  simp [ids_container, hs]

end CgroupMembership.Path
