import CgroupMembership.Proofs.Id.Layout
import CgroupMembership.Proofs.Path.Match
/-!
# Groups of digits as a grammar

`Grouped` says how a text is put together from groups of digits and the gaps between them, without a word on how it
is read. The reader accepts just these texts (`fitsGroups_iff`), so a container form is one of two spellings
(`isContainerForm_iff`), and a pod form is what a pod id is read from (`isPodForm_iff`).
-/

namespace CgroupMembership.Path

open Text

variable {s : Separation} {n m : Nat} {ns : List Nat} {t : Text}

/-- A number of lowercase base-16 digits. -/
structure IsDigits (n : Nat) (d : Text) : Prop where
  length : d.length = n
  lower : ∀ c ∈ d, isLowerHexDigit c = true

/-- What may stand between two groups. -/
def Separation.gaps : Separation → List Text
  | .required => [['-'], ['_']]
  | .optional => [[], ['-'], ['_']]

/-- Groups with these numbers of digits, and a gap between any two. -/
inductive Grouped (s : Separation) : List Nat → Text → Prop
  | last {n : Nat} {d : Text} (hd : IsDigits n d) : Grouped s [n] d
  | group {n m : Nat} {ns : List Nat} {d g t : Text} (hd : IsDigits n d) (hg : g ∈ s.gaps)
    (ht : Grouped s (m :: ns) t) : Grouped s (n :: m :: ns) (d ++ (g ++ t))

/-! ## Reading groups -/

theorem fitsGroups_singleton_iff : fitsGroups s [n] t = true ↔ IsDigits n t := by
  simp only [fitsGroups, Option.any_eq_true, afterDigits?_eq_some_iff]
  constructor
  · rintro ⟨r, ⟨d, rfl, hn, hd⟩, hr⟩
    rw [List.isEmpty_iff.1 hr, List.append_nil]
    exact ⟨hn, hd⟩
  · rintro ⟨hn, hd⟩
    exact ⟨[], ⟨t, (List.append_nil t).symm, hn, hd⟩, rfl⟩

theorem fitsGroups_cons_cons_iff :
    fitsGroups s (n :: m :: ns) t = true ↔
      ∃ u r, afterDigits? n t = some u ∧ afterSeparator? s u = some r ∧ fitsGroups s (m :: ns) r = true := by
  simp only [fitsGroups]
  cases h : (afterDigits? n t).bind (afterSeparator? s) with
  | some r =>
    obtain ⟨u, hu, hr⟩ := Option.bind_eq_some_iff.1 h
    constructor
    · intro hfits
      exact ⟨u, r, hu, hr, hfits⟩
    · rintro ⟨u', r', hu', hr', hfits⟩
      simp_all
  | none =>
    simp only [Bool.false_eq_true, false_iff]
    rintro ⟨u, r, hu, hr, -⟩
    simp [hu, hr] at h

theorem isSeparator_iff {c : Char} : isSeparator c = true ↔ c = '-' ∨ c = '_' := by
  simp [isSeparator]

theorem exists_gap_of_afterSeparator? {u r : Text} (h : afterSeparator? s u = some r) :
    ∃ g ∈ s.gaps, u = g ++ r := by
  cases u with
  | nil =>
    cases s with
    | required => simp [afterSeparator?] at h
    | optional => exact ⟨[], by simp [Separation.gaps], by simpa [afterSeparator?] using h⟩
  | cons c u =>
    simp only [afterSeparator?] at h
    split at h
    · rename_i hc
      refine ⟨[c], ?_, by rw [← Option.some.inj h]; rfl⟩
      rcases isSeparator_iff.1 hc with rfl | rfl
      all_goals cases s <;> simp [Separation.gaps]
    · simp only [Option.ite_none_right_eq_some, Option.some.injEq] at h
      obtain ⟨rfl, rfl⟩ := h
      exact ⟨[], by simp [Separation.gaps], rfl⟩

/-- A gap is passed over, as the group after it begins with a digit. -/
theorem afterSeparator?_gap {c : Char} (hc : isLowerHexDigit c = true) {g : Text} (hg : g ∈ s.gaps) (r : Text) :
    afterSeparator? s (g ++ c :: r) = some (c :: r) := by
  have hsep : isSeparator c = false := isSeparator_of_isLowerHexDigit hc
  cases s with
  | required =>
    simp only [Separation.gaps, List.mem_cons, List.not_mem_nil, or_false] at hg
    rcases hg with rfl | rfl
    · rfl
    · rfl
  | optional =>
    simp only [Separation.gaps, List.mem_cons, List.not_mem_nil, or_false] at hg
    rcases hg with rfl | rfl | rfl
    · simp [afterSeparator?, hsep]
    · rfl
    · rfl

theorem fitsGroups_iff (hpos : ∀ m ∈ ns, m ≠ 0) : fitsGroups s (n :: ns) t = true ↔ Grouped s (n :: ns) t := by
  induction ns generalizing n t with
  | nil =>
    rw [fitsGroups_singleton_iff]
    constructor
    · exact .last
    · rintro ⟨hd⟩
      exact hd
  | cons m ns ih =>
    obtain ⟨hm, hns⟩ := List.forall_mem_cons.1 hpos
    rw [fitsGroups_cons_cons_iff]
    constructor
    · rintro ⟨u, r, hu, hr, hfits⟩
      obtain ⟨d, rfl, hn, hd⟩ := afterDigits?_eq_some_iff.1 hu
      obtain ⟨g, hg, rfl⟩ := exists_gap_of_afterSeparator? hr
      exact .group ⟨hn, hd⟩ hg ((ih hns).1 hfits)
    · intro h
      cases h with
      | @group _ _ _ d g r hd hg hr =>
        have hfits := (ih hns).2 hr
        obtain ⟨k, rfl⟩ := Nat.exists_eq_succ_of_ne_zero hm
        obtain ⟨c, r', rfl, hc⟩ := head_of_fitsGroups hfits
        refine ⟨_, _, afterDigits?_eq_some_iff.2 ⟨d, rfl, hd.length, hd.lower⟩, ?_, hfits⟩
        exact afterSeparator?_gap hc hg r'

/-- A container form is a UUID, with any of its separators left out, or 64 digits. -/
theorem isContainerForm_iff {w : Text} :
    isContainerForm w = true ↔ Grouped .optional [8, 4, 4, 4, 12] w ∨ IsDigits 64 w := by
  have huuid : fitsGroups .optional uuidGroups w = true ↔ Grouped .optional [8, 4, 4, 4, 12] w :=
    fitsGroups_iff (by decide)
  rw [isContainerForm, Bool.or_eq_true, huuid, fitsGroups_singleton_iff]

/-! ## Groups between separators -/

theorem inGroups_singleton_zero_iff : InGroups [0] t ↔ t = [] := by
  cases t with
  | nil => simp [inGroups_nil]
  | cons c t =>
    simp only [reduceCtorEq, iff_false]
    cases hc : isSeparator c with
    | true =>
      rw [inGroups_cons_separator hc]
      rintro ⟨-, h⟩
      exact List.splitOnP_ne_nil _ _ (List.map_eq_nil_iff.1 h.1)
    | false => exact inGroups_cons_zero hc [] t

theorem inGroups_zero_cons_iff :
    InGroups (0 :: m :: ns) t ↔ ∃ r, afterSeparator? .required t = some r ∧ InGroups (m :: ns) r := by
  cases t with
  | nil => simp [inGroups_nil, afterSeparator?]
  | cons c t =>
    cases hc : isSeparator c with
    | true => simp [inGroups_cons_separator hc, afterSeparator?, hc]
    | false => simp [inGroups_cons_zero hc, afterSeparator?, hc]

theorem inGroups_iff :
    InGroups (n :: ns) t ↔ ∃ r, afterDigits? n t = some r ∧ InGroups (0 :: ns) r := by
  induction n generalizing t with
  | zero => simp [afterDigits?]
  | succ n ih =>
    cases t with
    | nil => simp [inGroups_nil, afterDigits?]
    | cons c t =>
      cases hc : isSeparator c with
      | true =>
        simp [inGroups_cons_separator hc, afterDigits?, isLowerHexDigit_of_isSeparator hc]
      | false =>
        rw [inGroups_cons_succ hc, ih]
        cases hl : isLowerHexDigit c <;> simp [afterDigits?, hl]

/-- Where separators are demanded, reading groups is splitting at separators. -/
theorem fitsGroups_required_iff : fitsGroups .required (n :: ns) t = true ↔ InGroups (n :: ns) t := by
  induction ns generalizing n t with
  | nil => simp [fitsGroups, inGroups_iff (n := n), inGroups_singleton_zero_iff, Option.any_eq_true]
  | cons m ns ih =>
    rw [fitsGroups_cons_cons_iff, inGroups_iff]
    simp only [inGroups_zero_cons_iff, ih]
    constructor
    · rintro ⟨u, r, hu, hr, h⟩
      exact ⟨u, hu, r, hr, h⟩
    · rintro ⟨u, hu, r, hr, h⟩
      exact ⟨u, r, hu, hr, h⟩

/-- A pod form is a UUID with all its separators. -/
theorem isPodForm_iff : isPodForm t = true ↔ IsUuid t := by
  rw [isUuid_iff]
  exact fitsGroups_required_iff

end CgroupMembership.Path
