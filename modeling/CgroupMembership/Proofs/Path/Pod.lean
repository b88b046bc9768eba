import CgroupMembership.Proofs.Path.Groups
import CgroupMembership.Proofs.Path.Segments
/-!
# The pod ids that paths name

The segment above the leaf ends in `pod` and an id. A pod id always has 36 characters, so one end of a segment at
most is one, and the search finds it (`finalPodId?_eq_some_iff`). What a path is searched for and what a pod id is
read from are the same texts (`PodId.exists_ofText_iff`), so no id that is found is lost. `pod_named_by_parent`
sums this up.
-/

namespace CgroupMembership

open Text

namespace Path

/-- Two pod ids at the end of a text are one. -/
theorem eq_of_isUuid_suffix {t w w' : Text} (h : w <:+ t) (h' : w' <:+ t) (hw : IsUuid w) (hw' : IsUuid w') :
    w = w' := by
  have hlen : w.length = w'.length := hw.length.trans hw'.length.symm
  exact (List.suffix_of_suffix_length_le h h' (Nat.le_of_eq hlen)).eq_of_length hlen

theorem exists_finalPodId? {t w : Text} (h : podMark ++ w <:+ t) (hw : isPodForm w = true) :
    ∃ w', finalPodId? t = some w' := by
  induction t with
  | nil =>
    have hnil : podMark ++ w = [] := List.suffix_nil.1 h
    exact absurd (List.append_eq_nil_iff.1 hnil).1 (by decide)
  | cons c t ih =>
    unfold finalPodId?
    split
    · exact ⟨_, rfl⟩
    · rename_i hc
      rcases List.suffix_cons_iff.1 h with he | hsuffix
      · -- Here the id follows the letters at this place, where it has been looked for.
        rw [← he, List.drop_left, hw, Bool.and_true] at hc
        exact absurd (List.isPrefixOf_iff_prefix.2 (List.prefix_append ..)) hc
      · exact ih hsuffix

theorem finalPodId?_eq_some_iff {t w : Text} :
    finalPodId? t = some w ↔ podMark ++ w <:+ t ∧ isPodForm w = true := by
  constructor
  · exact finalPodId?_suffix
  · rintro ⟨h, hw⟩
    obtain ⟨w', hw'⟩ := exists_finalPodId? h hw
    obtain ⟨h', hform⟩ := finalPodId?_suffix hw'
    have hsuffix {v : Text} (hv : podMark ++ v <:+ t) : v <:+ t := (List.suffix_append podMark v).trans hv
    rw [hw', eq_of_isUuid_suffix (hsuffix h') (hsuffix h) (isPodForm_iff.1 hform) (isPodForm_iff.1 hw)]

theorem podId?_eq_some_iff {u : Text} {p : PodId} :
    podId? u = some p ↔
      ∃ v raw, WithoutEnding [sliceEnding] u v ∧ podMark ++ raw <:+ v ∧ PodId.ofText raw = .ok p := by
  have hread {raw : Text} : (PodId.ofText raw).toOption = some p ↔ PodId.ofText raw = .ok p := by
    cases PodId.ofText raw <;> simp [Except.toOption]
  simp only [podId?, Option.bind_eq_some_iff, finalPodId?_eq_some_iff, withoutEnding_singleton_iff, hread]
  constructor
  · rintro ⟨raw, ⟨hsuffix, -⟩, hp⟩
    exact ⟨_, raw, rfl, hsuffix, hp⟩
  · rintro ⟨v, raw, rfl, hsuffix, hp⟩
    exact ⟨raw, ⟨hsuffix, isPodForm_iff.2 (PodId.ofText_eq_ok_iff.1 hp).1⟩, hp⟩

/-- A path names the pod whose id stands after `pod` at the end of the segment above the leaf. The texts that are
found there are the pod ids, each is kept as it is written, a segment has one at most, and the other segments have
no influence. -/
theorem pod_named_by_parent :
    (∀ (path : Text) (p : PodId), (ids path).2 = some p ↔
      ∃ u v raw, IsParent path u ∧ WithoutEnding [".slice".toList] u v ∧ "pod".toList ++ raw <:+ v ∧
        PodId.ofText raw = .ok p) ∧
    (∀ raw p, PodId.ofText raw = .ok p → p.text = raw) ∧
    (∀ raw, (∃ p, PodId.ofText raw = .ok p) ↔ IsUuid raw) ∧
    (∀ raw, isPodForm raw = true ↔ ∃ p, PodId.ofText raw = .ok p) ∧
    (∀ v raw, finalPodId? v = some raw → ∃ p, PodId.ofText raw = .ok p) ∧
    (∀ v raw raw', "pod".toList ++ raw <:+ v → "pod".toList ++ raw' <:+ v → IsUuid raw → IsUuid raw' →
      raw = raw') ∧
    ∀ path path', (∀ u, IsParent path u ↔ IsParent path' u) → (ids path).2 = (ids path').2 := by
  have hform {raw : Text} : isPodForm raw = true ↔ ∃ p, PodId.ofText raw = .ok p :=
    isPodForm_iff.trans PodId.exists_ofText_iff.symm
  refine ⟨fun path p => ?_, fun raw p => PodId.text_of_ofText, fun raw => PodId.exists_ofText_iff, fun raw => hform,
    ?_, ?_, ?_⟩
  · rw [pod_eq_some_iff]
    simp only [podId?_eq_some_iff]
    constructor
    · rintro ⟨u, hu, v, raw, hv, hsuffix, hp⟩
      exact ⟨u, v, raw, hu, hv, hsuffix, hp⟩
    · rintro ⟨u, v, raw, hu, hv, hsuffix, hp⟩
      exact ⟨u, hu, v, raw, hv, hsuffix, hp⟩
  · intro v raw h
    exact hform.1 (finalPodId?_suffix h).2
  · intro v raw raw' h h'
    exact eq_of_isUuid_suffix ((List.suffix_append _ raw).trans h) ((List.suffix_append _ raw').trans h')
  · intro path path' h
    refine Option.ext fun p => ?_
    simp only [pod_eq_some_iff, h]

/-- The letters occur twice in the segment above the leaf, which has a unit suffix; the separators differ. -/
theorem pod_named_by_parent_in_slice :
    let path := "//a/b-pod-podcafe0123-4567_89ab-cdef_0123456789ab.slice/x.scope/".toList
    ∃ p : PodId, p.text = "cafe0123-4567_89ab-cdef_0123456789ab".toList ∧ (ids path).2 = some p ∧
      IsUuid p.text := by
  intro path
  let p : PodId := ⟨"cafe0123-4567_89ab-cdef_0123456789ab".toList, by decide, by decide⟩
  let v : Text := "b-pod-pod".toList ++ p.text
  let u : Text := v ++ ".slice".toList
  have hleaf : EndsInSegment path ("//a/".toList ++ u ++ ['/']) "x.scope".toList :=
    ⟨⟨['/'], by decide, by simp⟩, .inr ⟨_, rfl⟩, by decide, by decide⟩
  have hu : EndsInSegment ("//a/".toList ++ u ++ ['/']) "//a/".toList u :=
    ⟨⟨['/'], rfl, by simp⟩, .inr ⟨"//a".toList, by decide⟩, by decide, by decide⟩
  obtain ⟨hnamed, -, huuid, -⟩ := pod_named_by_parent
  have hv : WithoutEnding [".slice".toList] u v := .cut v (List.mem_singleton_self _)
  have hpod : "pod".toList ++ p.text <:+ v := ⟨"b-pod-".toList, by decide⟩
  refine ⟨p, rfl, ?_, ?_⟩
  · exact (hnamed path p).2 ⟨u, v, p.text, ⟨_, _, hleaf, _, hu⟩, hv, hpod, p.ofText_text⟩
  · exact (huuid p.text).1 ⟨p, p.ofText_text⟩

end Path

end CgroupMembership
