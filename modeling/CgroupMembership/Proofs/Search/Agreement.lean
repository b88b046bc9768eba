import CgroupMembership.Search
import CgroupMembership.Proofs.Path.Leaf
import CgroupMembership.Proofs.Id.Candidate
import CgroupMembership.Proofs.Entry.Fields
/-!
# Where the two searches agree

The fast search reads the tail of a line by its punctuation, the detailed one looks for a container
form at the end of the leaf. `both_find_iff` says on which leaves they find the same id: on those that
a container runtime names after a bare id of 32 or 64 digits.
-/

namespace CgroupMembership

open Text CgroupMembership.Path

/-- The names of a leaf that a runtime makes from an id: the id alone or after a hyphen, maybe as the
name of a unit, or the id after a colon. -/
inductive RuntimeName (id : Text) : Text → Prop where
  | bare {e : Text} (he : e ∈ unitEndings) : RuntimeName id (id ++ e)
  | hyphen {x e : Text} (hx : ':' ∉ x) (he : e ∈ unitEndings) : RuntimeName id (x ++ '-' :: (id ++ e))
  | colon (x : Text) : RuntimeName id (x ++ ':' :: id)

/-- No dot but the one of a unit suffix. -/
def SingleDotted (s : Text) : Prop :=
  ∃ u e, s = u ++ e ∧ e ∈ unitEndings ∧ '.' ∉ u

/-! ## Characters -/

theorem not_mem_unitEndings {c : Char} (h : c ∉ unitEndings.flatten) {e : Text} (he : e ∈ unitEndings) :
    c ∉ e :=
  fun hc => h (List.mem_flatten_of_mem he hc)

theorem beginsAtDot_of_unitEnding {front e : Text} (he : e ∈ unitEndings) (hf : '.' ∉ front) :
    ContainerId.BeginsAtDot front e := by
  rcases mem_unitEndings_iff.1 he with rfl | rfl | rfl
  · exact .inl ⟨rfl, hf⟩
  · exact .inr ⟨"scope".toList, rfl, by decide, by decide⟩
  · exact .inr ⟨"slice".toList, rfl, by decide, by decide⟩

theorem SingleDotted.dotless {c : Char} {x r : Text} (h : SingleDotted (x ++ c :: r))
    (hc : c ∉ unitEndings.flatten) : '.' ∉ x := by
  obtain ⟨u, e, hs, he, hu⟩ := h
  rcases List.append_eq_append_iff.1 hs with ⟨v, rfl, -⟩ | ⟨v, -, hv⟩
  · exact fun hx => hu (List.mem_append_left v hx)
  · -- Here the unit suffix would begin before `c`.
    refine absurd ?_ (not_mem_unitEndings hc he)
    rw [hv]
    simp

/-- A unit suffix does not stand after a colon without its dot. -/
theorem unitEnding_eq_nil {u e x cand : Text} (he : e ∈ unitEndings) (h : u ++ e = x ++ ':' :: cand)
    (hdot : '.' ∉ cand) : e = [] := by
  have hce : ':' ∉ e := not_mem_unitEndings (by decide) he
  rcases List.append_eq_append_iff.1 h with ⟨v, -, hv⟩ | ⟨v, -, hv⟩
  · exact absurd (by simp [hv]) hce
  · cases v with
    | nil => exact absurd (List.nil_append e ▸ hv ▸ List.mem_cons_self) hce
    | cons c v =>
      obtain ⟨-, rfl⟩ := List.cons.inj hv
      rcases mem_unitEndings_iff.1 he with rfl | rfl | rfl
      · rfl
      · exact absurd (List.mem_append_right v (by decide)) hdot
      · exact absurd (List.mem_append_right v (by decide)) hdot

/-! ## What the fast search reads -/

/-- The candidate of a name, and what stands before it in the name without its unit suffix. -/
theorem candidate_of_singleDotted {line u e : Text} (h : afterLast '/' line = u ++ e) (he : e ∈ unitEndings)
    (hu : '.' ∉ u) {i : ContainerId} (hi : ContainerId.atTail? line = some i) :
    ∃ front cand, u = front ++ cand ∧ isHexNumber cand = true ∧ i.digits = toLower cand ∧
      ((':' ∉ front ∧ ContainerId.EndsAtHyphen front) ∨ (e = [] ∧ ∃ x, front = x ++ [':'])) := by
  by_cases hcolon : ':' ∈ u ++ e
  · obtain ⟨x, hx⟩ := exists_eq_append_afterLast hcolon
    have hn := not_mem_afterLast ':' (u ++ e)
    generalize afterLast ':' (u ++ e) = cand at hx hn
    rw [ContainerId.atTail?_of_colon (h.trans hx) hn, ContainerId.toOption_ofText_eq_some_iff] at hi
    have hnil := unitEnding_eq_nil he hx (not_mem_of_isHexNumber hi.1 (by decide))
    rw [hnil, List.append_nil] at hx
    exact ⟨x ++ [':'], cand, by simpa using hx, hi.1, hi.2, .inr ⟨hnil, x, rfl⟩⟩
  · have read : ∀ front cand, u = front ++ cand → ContainerId.EndsAtHyphen front → '-' ∉ cand →
        isHexNumber cand = true ∧ i.digits = toLower cand := by
      rintro front cand rfl hf hc
      rw [ContainerId.atTail?_of_hyphen h hcolon hf hc (beginsAtDot_of_unitEnding he hu)] at hi
      exact ContainerId.toOption_ofText_eq_some_iff.1 hi
    have hcu : ':' ∉ u := fun hm => hcolon (List.mem_append_left e hm)
    by_cases hhyphen : '-' ∈ u
    · obtain ⟨x, hx⟩ := exists_eq_append_afterLast hhyphen
      have hux : u = x ++ ['-'] ++ afterLast '-' u := by simpa using hx
      obtain ⟨hhex, hi⟩ := read _ _ hux (.inr ⟨x, rfl⟩) (not_mem_afterLast '-' u)
      refine ⟨_, _, hux, hhex, hi, .inl ⟨fun hm => hcu ?_, .inr ⟨x, rfl⟩⟩⟩
      rw [hux]
      exact List.mem_append_left _ hm
    · obtain ⟨hhex, hi⟩ := read [] u rfl (.inl rfl) hhyphen
      exact ⟨[], u, rfl, hhex, hi, .inl ⟨by simp, .inl rfl⟩⟩

/-! ## What both searches find -/

/-- A candidate with as many characters as the container form has digits is that form. -/
theorem digits_eq_candidate {front cand y w : Text} {i : ContainerId} (hcand : isHexNumber cand = true)
    (hi : i.digits = toLower cand) (hw : isContainerForm w = true) (hwi : i.digits = dropSeparators w)
    (h : front ++ cand = y ++ w) : i.digits = cand := by
  have hlen : cand.length = (dropSeparators w).length := by
    rw [← hwi, hi]
    simp [toLower]
  have hle : cand.length ≤ w.length := hlen ▸ length_dropSeparators_le w
  obtain ⟨p, rfl⟩ : cand <:+ w :=
    List.suffix_of_suffix_length_le (List.suffix_append front cand) ⟨y, h.symm⟩ hle
  have hp : p = [] := by
    refine eq_nil_of_isContainerForm_append hw ?_
    exact Nat.le_of_eq (by rw [← hlen, dropSeparators_of_isHexNumber hcand])
  rw [hwi, hp, List.nil_append, dropSeparators_of_isHexNumber hcand]

theorem not_mem_digits {c : Char} (hc : isHexDigit c = false) (i : ContainerId) : c ∉ i.digits :=
  not_mem_of_isHexNumber (isHexNumber_of_lower i.digits_ne_nil (List.all_eq_true.1 i.lower)) hc

/-- A bare id at the end of a name is the id of the leaf, with or without a unit suffix. -/
theorem leafId?_of_digits (front : Text) {e : Text} {i : ContainerId} (hf : EndsClear front) (hdot : '.' ∉ front)
    (he : e ∈ unitEndings) (hlen : i.digits.length = 32 ∨ i.digits.length = 64) :
    leafId? (front ++ i.digits ++ e) = some i := by
  have hl := List.all_eq_true.1 i.lower
  have hdots : '.' ∉ front ++ i.digits := by simp [hdot, not_mem_digits (c := '.') (by decide) i]
  exact leafId?_eq_some_iff.2 ⟨front, i.digits, stripUnit_append he hdots, hf,
    isContainerForm_of_lower hlen hl, (dropSeparators_of_lower hl).symm⟩

theorem atTail?_of_digits {line : Text} (front : Text) {e : Text} {i : ContainerId}
    (h : afterLast '/' line = front ++ i.digits ++ e) (hf : ContainerId.EndsAtHyphen front)
    (hcolon : ':' ∉ front) (hdot : '.' ∉ front) (he : e ∈ unitEndings) :
    ContainerId.atTail? line = some i := by
  have hce : ':' ∉ e := not_mem_unitEndings (by decide) he
  have hcolons : ':' ∉ front ++ i.digits ++ e := by
    simp [hcolon, hce, not_mem_digits (c := ':') (by decide) i]
  have hdots : '.' ∉ front ++ i.digits := by simp [hdot, not_mem_digits (c := '.') (by decide) i]
  rw [ContainerId.atTail?_of_hyphen h hcolons hf (not_mem_digits (by decide) i)
    (beginsAtDot_of_unitEnding he hdots), ContainerId.ofText_digits]
  rfl

theorem afterLast_slash_of_parse {line : Text} {e : Entry}
    (hline : ∀ c ∈ line.getLast?, Entry.isTerminator c = false) (he : Entry.parse line = .ok e)
    (hslash : '/' ∈ e.path) : afterLast '/' line = afterLast '/' e.path := by
  rw [Entry.parse_eq_ok_iff, trimEnd_eq_self hline, Entry.ofFields?_eq_some_iff] at he
  obtain ⟨number, field, rfl, -⟩ := he
  have split : number ++ ':' :: (field ++ ':' :: e.path) = (number ++ ':' :: field ++ [':']) ++ e.path := by
    simp
  rw [split, afterLast_append _ hslash]

/-! ## The names on which they agree -/

theorem runtimeName_of_found {line s : Text} {i : ContainerId} (htail : afterLast '/' line = s)
    (hdots : SingleDotted s) (hfast : ContainerId.atTail? line = some i) (hleaf : leafId? s = some i) :
    (i.digits.length = 32 ∨ i.digits.length = 64) ∧ RuntimeName i.digits s := by
  obtain ⟨u, e, rfl, he, hu⟩ := hdots
  obtain ⟨y, w, hyw, -, hw, hwi⟩ := leafId?_eq_some_iff.1 hleaf
  obtain ⟨front, cand, rfl, hcand, hi, hname⟩ := candidate_of_singleDotted htail he hu hfast
  rw [stripUnit_append he hu] at hyw
  have hic := digits_eq_candidate hcand hi hw hwi hyw
  refine ⟨hwi ▸ (digits_of_isContainerForm hw).1, ?_⟩
  rw [← hic]
  rcases hname with ⟨hx, rfl | ⟨x, rfl⟩⟩ | ⟨rfl, x, rfl⟩
  · exact .bare he
  · simpa using RuntimeName.hyphen (fun hm => hx (List.mem_append_left _ hm)) he
  · simpa using RuntimeName.colon x

theorem found_of_runtimeName {line s : Text} {i : ContainerId} (htail : afterLast '/' line = s)
    (hdots : SingleDotted s) (hlen : i.digits.length = 32 ∨ i.digits.length = 64)
    (hname : RuntimeName i.digits s) : ContainerId.atTail? line = some i ∧ leafId? s = some i := by
  cases hname with
  | @bare f hf =>
    exact ⟨atTail?_of_digits [] htail (.inl rfl) (by simp) (by simp) hf,
      leafId?_of_digits [] (by simp [EndsClear]) (by simp) hf hlen⟩
  | @hyphen x f hx hf =>
    have hdot : '.' ∉ x ++ ['-'] := by simp [hdots.dotless (by decide)]
    have hs : x ++ '-' :: (i.digits ++ f) = x ++ ['-'] ++ i.digits ++ f := by simp
    rw [hs] at htail ⊢
    exact ⟨atTail?_of_digits (x ++ ['-']) htail (.inr ⟨x, rfl⟩) (by simp [hx]) hdot hf,
      leafId?_of_digits (x ++ ['-']) (by simp [EndsClear]; decide) hdot hf hlen⟩
  | colon x =>
    have hdot : '.' ∉ x ++ [':'] := by simp [hdots.dotless (by decide)]
    have hs : x ++ ':' :: i.digits = x ++ [':'] ++ i.digits ++ [] := by simp
    constructor
    · rw [ContainerId.atTail?_of_colon htail (not_mem_digits (by decide) i), ContainerId.ofText_digits]
      rfl
    · rw [hs]
      exact leafId?_of_digits (x ++ [':']) (by simp [EndsClear]; decide) hdot (by decide) hlen

/-- On an entry whose leaf has no dot but that of a unit suffix, both searches find an id exactly if it
has 32 or 64 digits and the leaf is one of its names. -/
theorem both_find_iff {line : Text} {e : Entry} (hline : ∀ c ∈ line.getLast?, Entry.isTerminator c = false)
    (he : Entry.parse line = .ok e) (hslash : '/' ∈ e.path) (hlast : e.path.getLast? ≠ some '/')
    (hdots : SingleDotted (afterLast '/' e.path)) (i : ContainerId) :
    (ContainerId.atTail? line = some i ∧ (ids e.path).1 = some i) ↔
      (i.digits.length = 32 ∨ i.digits.length = 64) ∧ RuntimeName i.digits (afterLast '/' e.path) := by
  have htail := afterLast_slash_of_parse hline he hslash
  rw [container_of_afterLast hslash hlast]
  constructor
  · rintro ⟨hfast, hleaf⟩
    exact runtimeName_of_found htail hdots hfast hleaf
  · rintro ⟨hlen, hname⟩
    exact found_of_runtimeName htail hdots hlen hname

/-- A scope below a slice, and a controller without a name. -/
theorem both_find_in_scope :
    let path := "/a.slice/cri-o-0123456789abcdef0123456789abcdef.scope".toList
    ∃ i : ContainerId, i.digits = "0123456789abcdef0123456789abcdef".toList ∧
      ContainerId.atTail? ("4:cpu,:".toList ++ path) = some i ∧ (ids path).1 = some i := by
  intro path
  let e : Entry := ⟨4, ["cpu".toList, []], path⟩
  have hline : ∀ c ∈ ("4:cpu,:".toList ++ path).getLast?, Entry.isTerminator c = false := by
    intro c hc
    cases show some 'e' = some c from hc
    rfl
  have he : Entry.parse ("4:cpu,:".toList ++ path) = .ok e := by rfl
  have hdots : SingleDotted (afterLast '/' path) :=
    ⟨"cri-o-0123456789abcdef0123456789abcdef".toList, scopeEnding, rfl, by decide, by decide⟩
  refine ⟨⟨"0123456789abcdef0123456789abcdef".toList, by decide, by decide⟩, rfl, ?_⟩
  refine (both_find_iff hline he (by decide) (by decide) hdots _).2 ⟨.inl rfl, ?_⟩
  exact .hyphen (x := "cri-o".toList) (by decide) (show scopeEnding ∈ unitEndings by decide)

end CgroupMembership
