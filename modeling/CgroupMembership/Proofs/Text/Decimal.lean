import Mathlib.Data.List.Induction
import CgroupMembership.Text.Decimal
/-!
# Decimal numerals as a grammar

`Numeral` builds a numeral from its digits, the last one at the end. The reader accepts just these texts, with the
number that they denote (`readDecimal?_eq_some_iff`).
-/

namespace CgroupMembership.Text

/-- The ASCII digits in the order of their values. -/
def decimalDigits : Text := "0123456789".toList

/-- A text of one or more ASCII digits and the number it denotes. -/
inductive Numeral : Text → Nat → Prop
  | digit {c : Char} {k : Nat} (hc : decimalDigits[k]? = some c) : Numeral [c] k
  | more {d : Text} {n : Nat} (hd : Numeral d n) {c : Char} {k : Nat} (hc : decimalDigits[k]? = some c) :
    Numeral (d ++ [c]) (10 * n + k)

theorem decimalDigits_getElem?_iff {c : Char} {k : Nat} :
    decimalDigits[k]? = some c ↔ c.isDigit = true ∧ c.toNat - '0'.toNat = k := by
  constructor
  · intro h
    have all : ∀ i : Fin decimalDigits.length,
        decimalDigits[i].isDigit = true ∧ decimalDigits[i].toNat - '0'.toNat = i := by decide
    obtain ⟨hk, rfl⟩ := List.getElem?_eq_some_iff.1 h
    exact all ⟨k, hk⟩
  · rintro ⟨h, rfl⟩
    have hc : c.toNat < 128 := by
      simp [Char.isDigit, UInt32.le_iff_toNat_le] at h
      omega
    exact forall_ascii (p := fun c => c.isDigit = true → decimalDigits[c.toNat - '0'.toNat]? = some c) (by decide) hc h

theorem readDecimal?_eq_some_iff_digits {t : Text} {n : Nat} :
    readDecimal? t = some n ↔ t ≠ [] ∧ (∀ c ∈ t, c.isDigit = true) ∧ Nat.ofDigitChars 10 t 0 = n := by
  simp [readDecimal?, and_assoc]

theorem readDecimal?_eq_some_iff {t : Text} {n : Nat} : readDecimal? t = some n ↔ Numeral t n := by
  rw [readDecimal?_eq_some_iff_digits]
  constructor
  · rintro ⟨hne, hall, rfl⟩
    induction t using List.reverseRecOn with
    | nil => exact absurd rfl hne
    | append_singleton d c ih =>
      have hc : decimalDigits[c.toNat - '0'.toNat]? = some c :=
        decimalDigits_getElem?_iff.2 ⟨hall c (by simp), rfl⟩
      rw [Nat.ofDigitChars_append, Nat.ofDigitChars_cons, Nat.ofDigitChars_nil]
      by_cases hd : d = []
      · subst hd
        simpa using Numeral.digit hc
      · exact .more (ih hd fun x hx => hall x (by simp [hx])) hc
  · intro h
    induction h with
    | digit hc =>
      obtain ⟨hdigit, rfl⟩ := decimalDigits_getElem?_iff.1 hc
      simp [hdigit, Nat.ofDigitChars_cons]
    | more hd hc ih =>
      obtain ⟨hdigit, rfl⟩ := decimalDigits_getElem?_iff.1 hc
      obtain ⟨-, hall, rfl⟩ := ih
      refine ⟨by simp, ?_, ?_⟩
      · simpa [or_imp, forall_and, hdigit] using hall
      · rw [Nat.ofDigitChars_append, Nat.ofDigitChars_cons, Nat.ofDigitChars_nil]

theorem Numeral.isDigit {t : Text} {n : Nat} (h : Numeral t n) : ∀ c ∈ t, c.isDigit = true :=
  (readDecimal?_eq_some_iff_digits.1 (readDecimal?_eq_some_iff.2 h)).2.1

/-- A word is read from each numeral of its value, and from nothing else. -/
theorem readWord?_eq_some_iff {t : Text} {w : UInt64} : readWord? t = some w ↔ Numeral t w.toNat := by
  simp only [readWord?, Option.bind_eq_some_iff, readDecimal?_eq_some_iff]
  constructor
  · rintro ⟨n, hn, hw⟩
    split at hw
    · rw [← Option.some.inj hw]
      simpa using hn
    · cases hw
  · intro h
    have hlt : w.toNat < UInt64.size := w.toNat_lt_size
    refine ⟨w.toNat, h, ?_⟩
    rw [dif_pos hlt, Option.some.injEq]
    exact UInt64.toNat_inj.1 (by simp)

end CgroupMembership.Text
