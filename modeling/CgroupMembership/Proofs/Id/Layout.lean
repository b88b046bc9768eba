import Mathlib.Data.List.Forall2
import CgroupMembership.Id.Basic
import CgroupMembership.Proofs.Path.Match
/-!
# The characters of an id by their places

A text in groups of given lengths has its separators in fixed places (`forall₂_layout_iff`). So a pod id is a
text of 36 characters, of which four are separators (`PodId.ofText_eq_ok_iff`), and each such text is one
(`PodId.exists_ofText_iff`).
-/

namespace CgroupMembership

namespace Text

/-- The digits of a canonical id. -/
def lowerHexDigits : Text := "0123456789abcdef".toList

theorem isLowerHexDigit_iff {c : Char} : isLowerHexDigit c = true ↔ c ∈ lowerHexDigits := by
  constructor
  · intro h
    have hc : c.toNat < 128 := toNat_lt_of_isHexDigit (isHexDigit_of_isLowerHexDigit h)
    exact forall_ascii (p := fun c => isLowerHexDigit c = true → c ∈ lowerHexDigits) (by decide) hc h
  · intro h
    have all : lowerHexDigits.all isLowerHexDigit = true := by decide
    exact List.all_eq_true.1 all c h

/-- Whether each place of a text in groups of these lengths is that of a separator. -/
def layout : List Nat → List Bool
  | [] => []
  | [n] => List.replicate n false
  | n :: m :: ns => List.replicate n false ++ true :: layout (m :: ns)

/-- Whether a character may stand in a place. -/
def fits (separator : Bool) (c : Char) : Bool :=
  if separator then isSeparator c else isLowerHexDigit c

/-- The text falls into groups of lowercase base-16 digits of these lengths. -/
def InGroups (ns : List Nat) (t : Text) : Prop :=
  (t.splitOnP isSeparator).map List.length = ns ∧
    (t.splitOnP isSeparator).all (·.all isLowerHexDigit) = true

theorem inGroups_nil (ns : List Nat) : InGroups ns [] ↔ ns = [0] := by
  simp [InGroups, eq_comm]

theorem inGroups_cons_separator {c : Char} (hc : isSeparator c = true) (n : Nat) (ns : List Nat) (t : Text) :
    InGroups (n :: ns) (c :: t) ↔ n = 0 ∧ InGroups ns t := by
  unfold InGroups
  rw [List.splitOnP_cons_eq_if_modifyHead, if_pos hc, List.map_cons, List.cons.injEq, and_assoc, eq_comm]
  rfl

theorem inGroups_cons_zero {c : Char} (hc : isSeparator c = false) (ns : List Nat) (t : Text) :
    ¬InGroups (0 :: ns) (c :: t) := by
  unfold InGroups
  rw [List.splitOnP_cons_eq_if_modifyHead, if_neg (by simp [hc])]
  cases hs : t.splitOnP isSeparator with
  | nil => simp
  | cons g gs => simp

theorem inGroups_cons_succ {c : Char} (hc : isSeparator c = false) (n : Nat) (ns : List Nat) (t : Text) :
    InGroups ((n + 1) :: ns) (c :: t) ↔ isLowerHexDigit c = true ∧ InGroups (n :: ns) t := by
  unfold InGroups
  rw [List.splitOnP_cons_eq_if_modifyHead, if_neg (by simp [hc])]
  cases hs : t.splitOnP isSeparator with
  | nil => simp
  | cons g gs =>
    simp only [List.modifyHead_cons, List.map_cons, List.length_cons, List.cons.injEq, Nat.add_right_cancel_iff,
      List.all_cons, Bool.and_eq_true]
    constructor
    · rintro ⟨⟨hn, hns⟩, ⟨hc, hg⟩, hgs⟩
      exact ⟨hc, ⟨hn, hns⟩, hg, hgs⟩
    · rintro ⟨hc, ⟨hn, hns⟩, hg, hgs⟩
      exact ⟨⟨hn, hns⟩, ⟨hc, hg⟩, hgs⟩

theorem layout_succ (n : Nat) (ns : List Nat) : layout ((n + 1) :: ns) = false :: layout (n :: ns) := by
  cases ns <;> rfl

/-- A separator stands between two groups, and digits everywhere else. -/
theorem forall₂_layout_iff {n : Nat} {ns : List Nat} {t : Text} :
    List.Forall₂ (fun b c => fits b c = true) (layout (n :: ns)) t ↔ InGroups (n :: ns) t := by
  induction t generalizing n ns with
  | nil =>
    rw [inGroups_nil, List.forall₂_nil_right_iff]
    cases n with
    | zero => cases ns <;> simp [layout]
    | succ n => simp [layout_succ]
  | cons c t ih =>
    cases hc : isSeparator c with
    | true =>
      rw [inGroups_cons_separator hc]
      cases n with
      | zero =>
        cases ns with
        | nil => simp [layout, InGroups, List.splitOnP_ne_nil]
        | cons m ns =>
          rw [← ih]
          simp [layout, fits, hc]
      | succ n =>
        simp [layout_succ, fits, Path.isLowerHexDigit_of_isSeparator hc]
    | false =>
      cases n with
      | zero =>
        simp only [inGroups_cons_zero hc, iff_false]
        cases ns with
        | nil => nofun
        | cons m ns => simp [layout, fits, hc]
      | succ n =>
        rw [inGroups_cons_succ hc, layout_succ, List.forall₂_cons, ih]
        rfl

/-- A text of 36 characters: a hyphen or an underscore in four places and lowercase base-16 digits in all
others. -/
structure IsUuid (t : Text) : Prop where
  length : t.length = 36
  places : ∀ (i : Nat) (c : Char), t[i]? = some c →
    if i ∈ [8, 13, 18, 23] then c ∈ ['-', '_'] else c ∈ lowerHexDigits

theorem fits_iff {b : Bool} {c : Char} :
    fits b c = true ↔ if b = true then c ∈ ['-', '_'] else c ∈ lowerHexDigits := by
  cases b with
  | true => simp [fits, isSeparator]
  | false => simp [fits, isLowerHexDigit_iff]

theorem forall₂_range_iff {n : Nat} {R : Nat → Char → Prop} {t : Text} :
    List.Forall₂ R (List.range n) t ↔ t.length = n ∧ ∀ (i : Nat) (c : Char), t[i]? = some c → R i c := by
  rw [List.forall₂_iff_get]
  constructor
  · rintro ⟨hlen, h⟩
    rw [List.length_range] at hlen
    refine ⟨hlen.symm, fun i c hc => ?_⟩
    obtain ⟨hi, rfl⟩ := List.getElem?_eq_some_iff.1 hc
    simpa using h i (by simpa [hlen] using hi) hi
  · rintro ⟨hlen, h⟩
    refine ⟨List.length_range.trans hlen.symm, fun i _ hi => ?_⟩
    simpa using h i t[i] (List.getElem?_eq_getElem hi)

theorem isUuid_iff {t : Text} : IsUuid t ↔ InGroups uuidGroups t := by
  have hlayout : layout uuidGroups = (List.range 36).map fun i => decide (i ∈ [8, 13, 18, 23]) := by decide
  have hgroups : InGroups uuidGroups t ↔ List.Forall₂ (fun b c => fits b c = true) (layout uuidGroups) t :=
    forall₂_layout_iff.symm
  rw [hgroups, hlayout, List.forall₂_map_left_iff, forall₂_range_iff]
  simp only [fits_iff, decide_eq_true_iff]
  exact ⟨fun h => ⟨h.length, h.places⟩, fun h => ⟨h.1, h.2⟩⟩

end Text

theorem PodId.ofText_eq_ok_iff {raw : Text} {id : PodId} :
    ofText raw = .ok id ↔ Text.IsUuid raw ∧ id.text = raw := by
  rw [Text.isUuid_iff]
  constructor
  · intro h
    have ht := text_of_ofText h
    exact ⟨ht ▸ ⟨id.groups_length, id.groups_lower⟩, ht⟩
  · rintro ⟨-, rfl⟩
    exact ofText_text id

theorem PodId.exists_ofText_iff {raw : Text} : (∃ p, ofText raw = .ok p) ↔ Text.IsUuid raw := by
  constructor
  · rintro ⟨p, hp⟩
    exact (ofText_eq_ok_iff.1 hp).1
  · intro h
    have hg := Text.isUuid_iff.1 h
    exact ⟨⟨raw, hg.1, hg.2⟩, ofText_eq_ok_iff.2 ⟨h, rfl⟩⟩

end CgroupMembership
