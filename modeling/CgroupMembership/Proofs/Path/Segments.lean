import CgroupMembership.Proofs.Path.Leaf
/-!
# The last segments of a path

The leaf of a path is found from the end of it: slashes, then the segment, then nothing or another slash. The
segment above it is the leaf of what stands before. `isLeaf_iff` and `isParent_iff` say that these are the last
two entries of `segments`, and `ids_container` and `ids_pod` that nothing else is read.
-/

namespace CgroupMembership.Path

open Text

variable {path front s u : Text}

/-- The path ends in the segment `s`: slashes alone follow it, and `front` before it is empty or ends in a
slash. -/
structure EndsInSegment (path front s : Text) : Prop where
  eq : ∃ slashes, path = front ++ s ++ slashes ∧ ∀ c ∈ slashes, c = '/'
  front : front = [] ∨ ∃ a, front = a ++ ['/']
  ne_nil : s ≠ []
  slashless : '/' ∉ s

/-- The last segment of the path that is not empty. -/
def IsLeaf (path s : Text) : Prop :=
  ∃ front, EndsInSegment path front s

/-- The last segment but one that is not empty. -/
def IsParent (path u : Text) : Prop :=
  ∃ front s, EndsInSegment path front s ∧ IsLeaf front u

/-! ## Slashes around a segment -/

theorem segments_of_slashes {t : Text} (h : ∀ c ∈ t, c = '/') : segments t = [] := by
  induction t with
  | nil => simp [segments]
  | cons c t ih =>
    obtain ⟨rfl, ht⟩ := List.forall_mem_cons.1 h
    have hs : segments ([] ++ '/' :: t) = segments [] ++ segments t := segments_append_slash [] t
    rw [List.nil_append] at hs
    rw [hs, ih ht]
    simp [segments]

theorem segments_append_slashes (t : Text) {slashes : Text} (h : ∀ c ∈ slashes, c = '/') :
    segments (t ++ slashes) = segments t := by
  cases slashes with
  | nil => rw [List.append_nil]
  | cons c slashes =>
    obtain ⟨rfl, hs⟩ := List.forall_mem_cons.1 h
    rw [segments_append_slash, segments_of_slashes hs, List.append_nil]

theorem EndsInSegment.segments (h : EndsInSegment path front s) :
    segments path = Path.segments front ++ [s] := by
  obtain ⟨slashes, rfl, hs⟩ := h.eq
  have hleaf : Path.segments s = [s] := segments_of_not_mem h.slashless h.ne_nil
  rw [segments_append_slashes _ hs]
  rcases h.front with rfl | ⟨a, rfl⟩
  · rw [List.nil_append, hleaf]
    rfl
  · have hfront : Path.segments (a ++ ['/']) = Path.segments a := segments_append_slashes a (by simp)
    rw [hfront, List.append_assoc, List.singleton_append, segments_append_slash, hleaf]

/-- A path of which anything is left without its final slashes ends in a segment. -/
theorem exists_endsInSegment (h : segments path ≠ []) : ∃ front s, EndsInSegment path front s := by
  obtain ⟨slashes, hpath, hslashes⟩ := exists_eq_trimEnd_append (· == '/') path
  have hlast := not_getLast?_trimEnd (· == '/') path
  generalize trimEnd (· == '/') path = q at hpath hlast
  have hs : ∀ c ∈ slashes, c = '/' := by simpa using hslashes
  have hend : q.getLast? ≠ some '/' := fun he => by simpa using hlast '/' he
  by_cases hm : '/' ∈ q
  · obtain ⟨a, ha⟩ := exists_eq_append_afterLast hm
    refine ⟨a ++ ['/'], afterLast '/' q, ⟨slashes, ?_, hs⟩, .inr ⟨a, rfl⟩, afterLast_ne_nil hm hend,
      not_mem_afterLast '/' q⟩
    rw [hpath, List.append_assoc a, List.singleton_append, ← ha]
  · refine ⟨[], q, ⟨slashes, hpath, hs⟩, .inl rfl, ?_, hm⟩
    rintro rfl
    exact h (hpath ▸ segments_of_slashes hs)

/-! ## The last two segments -/

theorem isLeaf_iff : IsLeaf path s ↔ (segments path).getLast? = some s := by
  constructor
  · rintro ⟨front, h⟩
    simp [h.segments]
  · intro h
    have hne : segments path ≠ [] := by
      rintro h0
      simp [h0] at h
    obtain ⟨front, s', h'⟩ := exists_endsInSegment hne
    obtain rfl : s' = s := by simpa [h'.segments] using h
    exact ⟨front, h'⟩

theorem isParent_iff : IsParent path u ↔ (segments path).dropLast.getLast? = some u := by
  constructor
  · rintro ⟨front, s, h, hu⟩
    rw [h.segments, List.dropLast_concat]
    exact isLeaf_iff.1 hu
  · intro h
    have hne : segments path ≠ [] := by
      rintro h0
      simp [h0] at h
    obtain ⟨front, s, h'⟩ := exists_endsInSegment hne
    rw [h'.segments, List.dropLast_concat] at h
    exact ⟨front, s, h', isLeaf_iff.2 h⟩

theorem ids_pod (path : Text) : (ids path).2 = (segments path).dropLast.getLast?.bind podId? := by
  rw [ids, ← List.head?_reverse, ← List.tail_reverse]
  rcases (segments path).reverse with _ | ⟨leaf, _ | ⟨parent, rest⟩⟩
  all_goals rfl

theorem container_eq_some_iff {c : ContainerId} :
    (ids path).1 = some c ↔ ∃ s, IsLeaf path s ∧ leafId? s = some c := by
  simp only [ids_container, Option.bind_eq_some_iff, isLeaf_iff]

theorem pod_eq_some_iff {p : PodId} :
    (ids path).2 = some p ↔ ∃ u, IsParent path u ∧ podId? u = some p := by
  simp only [ids_pod, Option.bind_eq_some_iff, isParent_iff]

end CgroupMembership.Path
