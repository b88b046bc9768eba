import Mathlib.Algebra.GroupWithZero.Nat
import CgroupMembership.Path.Pattern
/-!
# The one container form at the end of a segment

A segment may hold digits and separators in any number, and a text in container form could begin at
several places of it. What decides is the count of digits: `eq_of_isContainerForm` says that only one
such end of a text has no digit before it. So the search from the left finds an end exactly if it is
that one (`finalId?_eq_some_iff`).
-/

namespace CgroupMembership.Path

open Text

/-! ## Digits and separators -/

theorem isSeparator_of_isLowerHexDigit {c : Char} (h : isLowerHexDigit c = true) :
    isSeparator c = false := by
  simp only [isSeparator, Bool.or_eq_false_iff, beq_eq_false_iff_ne]
  constructor <;> rintro rfl <;> exact absurd h (by decide)

theorem isLowerHexDigit_of_isSeparator {c : Char} (h : isSeparator c = true) : isLowerHexDigit c = false := by
  rw [Bool.eq_false_iff]
  intro hl
  rw [isSeparator_of_isLowerHexDigit hl] at h
  cases h

theorem dropSeparators_append (a b : Text) :
    dropSeparators (a ++ b) = dropSeparators a ++ dropSeparators b :=
  List.filter_append ..

theorem dropSeparators_of_lower {t : Text} (h : ∀ c ∈ t, isLowerHexDigit c = true) :
    dropSeparators t = t :=
  List.filter_eq_self.2 fun c hc => by simp [isSeparator_of_isLowerHexDigit (h c hc)]

theorem dropSeparators_cons_separator {c : Char} (h : isSeparator c = true) (t : Text) :
    dropSeparators (c :: t) = dropSeparators t := by
  simp [dropSeparators, h]

theorem length_dropSeparators_le (t : Text) : (dropSeparators t).length ≤ t.length :=
  List.length_filter_le ..

/-! ## Groups of digits -/

theorem afterDigits?_eq_some_iff {n : Nat} {t r : Text} :
    afterDigits? n t = some r ↔
      ∃ d, t = d ++ r ∧ d.length = n ∧ ∀ c ∈ d, isLowerHexDigit c = true := by
  induction n generalizing t with
  | zero =>
    simp only [afterDigits?, Option.some.injEq, List.length_eq_zero_iff]
    constructor
    · rintro rfl
      exact ⟨[], rfl, rfl, by simp⟩
    · rintro ⟨d, rfl, rfl, -⟩
      rfl
  | succ n ih =>
    cases t with
    | nil =>
      simp only [afterDigits?, reduceCtorEq, false_iff]
      rintro ⟨d, hd, hn, -⟩
      rw [(List.append_eq_nil_iff.1 hd.symm).1] at hn
      cases hn
    | cons c t =>
      simp only [afterDigits?, Option.ite_none_right_eq_some, ih]
      constructor
      · rintro ⟨hc, d, rfl, hn, hd⟩
        exact ⟨c :: d, rfl, by simp [hn], List.forall_mem_cons.2 ⟨hc, hd⟩⟩
      · rintro ⟨d, he, hn, hd⟩
        cases d with
        | nil => cases hn
        | cons c' d =>
          obtain ⟨rfl, rfl⟩ := List.cons.inj he
          exact ⟨hd c (by simp), d, rfl, Nat.succ.inj hn, fun x hx => hd x (by simp [hx])⟩

/-- Nothing, or one separator, stands between two groups. -/
theorem afterSeparator?_eq_some {s : Separation} {t r : Text} (h : afterSeparator? s t = some r) :
    t = r ∨ ∃ c, isSeparator c = true ∧ t = c :: r := by
  cases t with
  | nil =>
    simp only [afterSeparator?, Option.ite_none_right_eq_some, Option.some.injEq] at h
    exact .inl h.2
  | cons c t =>
    simp only [afterSeparator?] at h
    split at h
    · rename_i hc
      exact .inr ⟨c, hc, by rw [Option.some.inj h]⟩
    · simp only [Option.ite_none_right_eq_some, Option.some.injEq] at h
      exact .inl h.2

/-- A text in groups has digits and separators only, and as many digits as its groups. -/
theorem digits_of_fitsGroups {s : Separation} {ns : List Nat} {t : Text} (h : fitsGroups s ns t = true) :
    (dropSeparators t).length = ns.sum ∧
      ∀ c ∈ t, isLowerHexDigit c = true ∨ isSeparator c = true := by
  fun_induction fitsGroups s ns t with
  | case1 t =>
    rw [List.isEmpty_iff.1 h]
    exact ⟨rfl, by simp⟩
  | case2 n t =>
    obtain ⟨r, hr, he⟩ := Option.any_eq_true _ _ |>.1 h
    obtain ⟨d, rfl, hn, hd⟩ := afterDigits?_eq_some_iff.1 hr
    rw [List.isEmpty_iff.1 he, List.append_nil, dropSeparators_of_lower hd]
    exact ⟨by simpa using hn, fun c hc => .inl (hd c hc)⟩
  | case3 n m ns t rest hr ih =>
    obtain ⟨u, hu, hs⟩ := Option.bind_eq_some_iff.1 hr
    obtain ⟨d, rfl, hn, hd⟩ := afterDigits?_eq_some_iff.1 hu
    obtain ⟨hlen, hall⟩ := ih h
    have hsep : (dropSeparators u).length = (m :: ns).sum ∧
        ∀ c ∈ u, isLowerHexDigit c = true ∨ isSeparator c = true := by
      rcases afterSeparator?_eq_some hs with rfl | ⟨c, hc, rfl⟩
      · exact ⟨hlen, hall⟩
      · exact ⟨by rw [dropSeparators_cons_separator hc, hlen], List.forall_mem_cons.2 ⟨.inr hc, hall⟩⟩
    refine ⟨?_, ?_⟩
    · rw [dropSeparators_append, dropSeparators_of_lower hd, List.length_append, hn, hsep.1]
      simp
    · intro c hc
      rcases List.mem_append.1 hc with hc | hc
      · exact .inl (hd c hc)
      · exact hsep.2 c hc
  | case4 => cases h

theorem head_of_fitsGroups {s : Separation} {n : Nat} {ns : List Nat} {t : Text}
    (h : fitsGroups s ((n + 1) :: ns) t = true) : ∃ c u, t = c :: u ∧ isLowerHexDigit c = true := by
  have hd : ∃ r, afterDigits? (n + 1) t = some r := by
    cases ns with
    | nil =>
      obtain ⟨r, hr, -⟩ := Option.any_eq_true _ _ |>.1 (by simpa [fitsGroups] using h)
      exact ⟨r, hr⟩
    | cons m ns =>
      simp only [fitsGroups] at h
      split at h
      · rename_i hr
        obtain ⟨u, hu, -⟩ := Option.bind_eq_some_iff.1 hr
        exact ⟨u, hu⟩
      · cases h
  obtain ⟨r, hr⟩ := hd
  obtain ⟨d, rfl, hn, hd⟩ := afterDigits?_eq_some_iff.1 hr
  cases d with
  | nil => cases hn
  | cons c d => exact ⟨c, d ++ r, rfl, hd c (by simp)⟩

/-- Where separators may be left out, digits alone are groups. -/
theorem fitsGroups_of_lower (ns : List Nat) {t : Text} (hn : t.length = ns.sum)
    (ht : ∀ c ∈ t, isLowerHexDigit c = true) : fitsGroups .optional ns t = true := by
  have cut : ∀ {k : Nat}, k ≤ t.length → afterDigits? k t = some (t.drop k) := fun hk =>
    afterDigits?_eq_some_iff.2 ⟨t.take _, (List.take_append_drop ..).symm, List.length_take_of_le hk,
      fun c hc => ht c (List.mem_of_mem_take hc)⟩
  match ns with
  | [] => simpa [fitsGroups] using hn
  | [n] =>
    have hn : t.length = n := by simpa using hn
    simp [fitsGroups, cut (Nat.le_of_eq hn.symm), hn]
  | n :: m :: ns =>
    have hk : n ≤ t.length := by rw [hn, List.sum_cons]; omega
    have hrest : ∀ c ∈ t.drop n, isLowerHexDigit c = true := fun c hc => ht c (List.mem_of_mem_drop hc)
    have hsep : afterSeparator? .optional (t.drop n) = some (t.drop n) := by
      cases h : t.drop n with
      | nil => rfl
      | cons c u =>
        have := isSeparator_of_isLowerHexDigit (hrest c (by simp [h]))
        simp [afterSeparator?, this]
    simp only [fitsGroups, cut hk, Option.bind_some, hsep]
    exact fitsGroups_of_lower (m :: ns) (by rw [List.length_drop, hn, List.sum_cons]; omega) hrest

/-! ## Container forms -/

/-- No digit of an id stands at the end of the text. -/
def EndsClear (t : Text) : Prop :=
  ∀ c ∈ t.getLast?, isLowerHexDigit c = false

theorem digits_of_isContainerForm {w : Text} (h : isContainerForm w = true) :
    ((dropSeparators w).length = 32 ∨ (dropSeparators w).length = 64) ∧
      ∀ c ∈ w, isLowerHexDigit c = true ∨ isSeparator c = true := by
  rcases Bool.or_eq_true_iff.1 h with h | h
  · exact ⟨.inl (digits_of_fitsGroups h).1, (digits_of_fitsGroups h).2⟩
  · exact ⟨.inr (digits_of_fitsGroups h).1, (digits_of_fitsGroups h).2⟩

theorem head_of_isContainerForm {w : Text} (h : isContainerForm w = true) :
    ∃ c u, w = c :: u ∧ isLowerHexDigit c = true := by
  rcases Bool.or_eq_true_iff.1 h with h | h
  · exact head_of_fitsGroups h
  · exact head_of_fitsGroups h

/-- Only the form of 32 digits has separators. -/
theorem length_dropSeparators_of_separator {w : Text} (h : isContainerForm w = true) {c : Char}
    (hc : c ∈ w) (hs : isSeparator c = true) : (dropSeparators w).length = 32 := by
  rcases Bool.or_eq_true_iff.1 h with h | h
  · exact (digits_of_fitsGroups h).1
  · obtain ⟨r, hr, he⟩ := Option.any_eq_true _ _ |>.1 (by simpa [fitsGroups] using h)
    obtain ⟨d, rfl, -, hd⟩ := afterDigits?_eq_some_iff.1 hr
    rw [List.isEmpty_iff.1 he, List.append_nil] at hc
    rw [isSeparator_of_isLowerHexDigit (hd c hc)] at hs
    cases hs

theorem isContainerForm_of_lower {w : Text} (hn : w.length = 32 ∨ w.length = 64)
    (hw : ∀ c ∈ w, isLowerHexDigit c = true) : isContainerForm w = true := by
  rcases hn with hn | hn
  · simp [isContainerForm, fitsGroups_of_lower uuidGroups (by simpa [uuidGroups] using hn) hw]
  · simp [isContainerForm, fitsGroups_of_lower [64] (by simpa using hn) hw]

/-- The digits of a container form determine where it begins: a longer one would have more of them. -/
theorem eq_nil_of_isContainerForm_append {p w : Text} (h : isContainerForm (p ++ w) = true)
    (hd : (dropSeparators (p ++ w)).length ≤ (dropSeparators w).length) : p = [] := by
  cases p with
  | nil => rfl
  | cons c p =>
    obtain ⟨c', u, hu, hc⟩ := head_of_isContainerForm h
    obtain ⟨rfl, -⟩ := List.cons.inj hu
    have : (dropSeparators (c :: p)).length = (dropSeparators p).length + 1 := by
      simp [dropSeparators, isSeparator_of_isLowerHexDigit hc]
    rw [dropSeparators_append, List.length_append] at hd
    omega

/-- One of two ends in container form cannot be the longer one. -/
theorem eq_nil_of_endsClear {y p w : Text} (hy : EndsClear (y ++ p)) (hpw : isContainerForm (p ++ w) = true)
    (hw : isContainerForm w = true) : p = [] := by
  rcases p.eq_nil_or_concat with rfl | ⟨q, c, rfl⟩
  · rfl
  · refine eq_nil_of_isContainerForm_append hpw ?_
    have hc : isLowerHexDigit c = false := hy c (by simp)
    have hs : isSeparator c = true := by
      have := (digits_of_isContainerForm hpw).2 c (by simp)
      simpa [hc] using this
    -- The character before `w` is a separator, so the longer end has 32 digits, and `w` has no fewer.
    rw [length_dropSeparators_of_separator hpw (by simp) hs]
    rcases (digits_of_isContainerForm hw).1 with h | h <;> omega

theorem eq_of_isContainerForm {y w y' w' : Text} (h : y ++ w = y' ++ w') (hy : EndsClear y)
    (hy' : EndsClear y') (hw : isContainerForm w = true) (hw' : isContainerForm w' = true) :
    y = y' ∧ w = w' := by
  rcases List.append_eq_append_iff.1 h with ⟨p, rfl, rfl⟩ | ⟨p, rfl, rfl⟩
  · have := eq_nil_of_endsClear hy' hw hw'
    simp [this]
  · have := eq_nil_of_endsClear hy hw' hw
    simp [this]

/-! ## The search from the left -/

theorem finalIdFrom?_eq_some_iff (before : Text) {t w : Text} {bounded : Bool}
    (hb : bounded = true ↔ EndsClear before) :
    finalIdFrom? bounded t = some w ↔
      ∃ y, t = y ++ w ∧ EndsClear (before ++ y) ∧ isContainerForm w = true := by
  -- What is passed over joins `before`, and `bounded` goes on to say whether that ends clear.
  induction t generalizing before bounded with
  | nil =>
    simp only [finalIdFrom?, reduceCtorEq, false_iff]
    rintro ⟨y, hy, -, hw⟩
    obtain ⟨c, u, rfl, -⟩ := head_of_isContainerForm hw
    simp at hy
  | cons c t ih =>
    have hnext : (!isLowerHexDigit c) = true ↔ EndsClear (before ++ [c]) := by simp [EndsClear]
    unfold finalIdFrom?
    split
    · rename_i hc
      obtain ⟨hbd, hct⟩ := Bool.and_eq_true_iff.1 hc
      rw [Option.some.injEq]
      constructor
      · rintro rfl
        exact ⟨[], rfl, by simpa using hb.1 hbd, hct⟩
      · rintro ⟨y, hy, hclear, hw⟩
        have h : before ++ (c :: t) = before ++ y ++ w := by rw [hy, List.append_assoc]
        exact (eq_of_isContainerForm h (hb.1 hbd) hclear hct hw).2
    · rename_i hc
      rw [ih (before ++ [c]) hnext]
      constructor
      · rintro ⟨y, rfl, hclear, hw⟩
        exact ⟨c :: y, rfl, by simpa using hclear, hw⟩
      · rintro ⟨y, hy, hclear, hw⟩
        cases y with
        | nil =>
          refine absurd ?_ hc
          rw [List.nil_append] at hy
          rw [hy, Bool.and_eq_true_iff]
          exact ⟨hb.2 (by simpa using hclear), hw⟩
        | cons c' y =>
          obtain ⟨rfl, rfl⟩ := List.cons.inj hy
          exact ⟨y, rfl, by simpa using hclear, hw⟩

/-- A segment ends in a container form that no digit stands before, and then it is the one found. -/
theorem finalId?_eq_some_iff {t w : Text} :
    finalId? t = some w ↔ ∃ y, t = y ++ w ∧ EndsClear y ∧ isContainerForm w = true :=
  finalIdFrom?_eq_some_iff [] (by simp [EndsClear])

end CgroupMembership.Path
