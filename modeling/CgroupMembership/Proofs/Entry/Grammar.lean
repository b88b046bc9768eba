import CgroupMembership.Proofs.Entry.RoundTrip
import CgroupMembership.Proofs.Text.Decimal
/-!
# The grammar of an entry

`Spells` says which line, without its terminators, is an entry. A line is one entry at most and has one division into
fields (`Spells.unique`). `parse_iff_spells` says that a line is read just if it is an entry, and that every other
line is returned in the error.
-/

namespace CgroupMembership.Entry

open Text

/-- The text `t` is the line without the line feeds and carriage returns at its end. -/
structure Trimmed (line t : Text) : Prop where
  eq : ∃ s, line = t ++ s ∧ ∀ c ∈ s, c = '\n' ∨ c = '\r'
  last : ∀ c ∈ t.getLast?, c ≠ '\n' ∧ c ≠ '\r'

/-- The text is the entry `e`, with these texts in the fields before the path. -/
structure Spells (t number field : Text) (e : Entry) : Prop where
  eq : t = number ++ ':' :: (field ++ ':' :: e.path)
  numeral : Numeral number e.hierarchy.toNat
  colonless : ':' ∉ field
  unnamed : field = [] → e.controllers = []
  named : field ≠ [] → (∀ name ∈ e.controllers, ',' ∉ name) ∧ List.intercalate [','] e.controllers = field
  path : e.path ≠ []

theorem isTerminator_iff {c : Char} : isTerminator c = true ↔ c = '\n' ∨ c = '\r' := by
  simp [isTerminator]

theorem trimmed_iff {line t : Text} : Trimmed line t ↔ t = trimEnd isTerminator line := by
  constructor
  · rintro ⟨⟨s, rfl, hs⟩, hlast⟩
    have hend : ∀ c ∈ t.getLast?, isTerminator c = false := by
      intro c hc
      simpa [isTerminator] using hlast c hc
    rw [trimEnd_append t fun c hc => isTerminator_iff.2 (hs c hc), trimEnd_eq_self hend]
  · rintro rfl
    obtain ⟨s, hline, hs⟩ := exists_eq_trimEnd_append isTerminator line
    refine ⟨⟨s, hline, fun c hc => isTerminator_iff.1 (List.all_eq_true.1 hs c hc)⟩, fun c hc => ?_⟩
    simpa [isTerminator] using not_getLast?_trimEnd isTerminator line c hc

/-! ## Fields -/

/-- The names of a field are the texts between its commas, and an empty field has none. -/
theorem eq_readControllers_iff {field : Text} {names : List Text} :
    names = readControllers field ↔
      (field = [] → names = []) ∧
        (field ≠ [] → (∀ name ∈ names, ',' ∉ name) ∧ List.intercalate [','] names = field) := by
  by_cases hf : field = []
  · subst hf
    simp [readControllers]
  · simp only [hf, false_imp_iff, true_and, ne_eq, not_false_eq_true, true_imp_iff]
    constructor
    · rintro rfl
      rw [readControllers, if_neg (by simpa using hf)]
      exact ⟨fun name hn => (mem_of_mem_splitOn hn).1, List.intercalate_splitOn ','⟩
    · rintro ⟨hcomma, rfl⟩
      have hn : names ≠ [[]] := by
        rintro rfl
        exact hf rfl
      exact (readControllers_intercalate hcomma hn).symm

theorem colon_not_mem_of_numeral {number : Text} {n : Nat} (h : Numeral number n) : ':' ∉ number := by
  intro hm
  exact absurd (h.isDigit ':' hm) (by decide)

theorem ofFields?_eq_some_iff_spells {t : Text} {e : Entry} :
    ofFields? t = some e ↔ ∃ number field, Spells t number field e := by
  simp only [ofFields?_eq_some_iff, readWord?_eq_some_iff, eq_readControllers_iff]
  constructor
  · rintro ⟨number, field, ht, -, hf, hn, ⟨hunnamed, hnamed⟩, hp⟩
    exact ⟨number, field, ht, hn, hf, hunnamed, hnamed, hp⟩
  · rintro ⟨number, field, ht, hn, hf, hunnamed, hnamed, hp⟩
    exact ⟨number, field, ht, colon_not_mem_of_numeral hn, hf, hn, ⟨hunnamed, hnamed⟩, hp⟩

theorem Spells.split {t number field : Text} {e : Entry} (h : Spells t number field e) :
    splitFirst? ':' t = some (number, field ++ ':' :: e.path) :=
  splitFirst?_eq_some_iff.2 ⟨h.eq, colon_not_mem_of_numeral h.numeral⟩

theorem Spells.split_rest {t number field : Text} {e : Entry} (h : Spells t number field e) :
    splitFirst? ':' (field ++ ':' :: e.path) = some (field, e.path) :=
  splitFirst?_eq_some_iff.2 ⟨rfl, h.colonless⟩

/-- A text is one entry at most, with one text in each field. -/
theorem Spells.unique {t number field number' field' : Text} {e e' : Entry} (h : Spells t number field e)
    (h' : Spells t number' field' e') : number = number' ∧ field = field' ∧ e = e' := by
  have hfirst := h.split.symm.trans h'.split
  simp only [Option.some.injEq, Prod.mk.injEq] at hfirst
  have hrest := h.split_rest
  rw [hfirst.2, h'.split_rest] at hrest
  simp only [Option.some.injEq, Prod.mk.injEq] at hrest
  have he := ofFields?_eq_some_iff_spells.2 ⟨_, _, h⟩
  rw [ofFields?_eq_some_iff_spells.2 ⟨_, _, h'⟩, Option.some.injEq] at he
  exact ⟨hfirst.1, hrest.1.symm, he.symm⟩

/-! ## Lines -/

/-- A line is read as the entry that it spells without its terminators, and what it spells is unique. A line that
spells none is malformed, and the error holds it without its terminators. -/
theorem parse_iff_spells (line : Text) :
    ∃ t, (∀ u, Trimmed line u ↔ u = t) ∧
      (∀ e, parse line = .ok e ↔ ∃ number field, Spells t number field e) ∧
      (∀ number field e number' field' e', Spells t number field e → Spells t number' field' e' →
        number = number' ∧ field = field' ∧ e = e') ∧
      ((¬∃ number field e, Spells t number field e) → parse line = .error ⟨t⟩) := by
  refine ⟨trimEnd isTerminator line, fun u => trimmed_iff, fun e => ?_, fun _ _ _ _ _ _ => Spells.unique, ?_⟩
  · rw [parse_eq_ok_iff, ofFields?_eq_some_iff_spells]
  · intro hnone
    have hfields : ofFields? (trimEnd isTerminator line) = none := by
      rw [Option.eq_none_iff_forall_ne_some]
      intro e he
      obtain ⟨number, field, h⟩ := ofFields?_eq_some_iff_spells.1 he
      exact hnone ⟨number, field, e, h⟩
    rw [parse, hfields]

/-- Zeros in front of the number, a controller without a name and a colon in the path; then a number that has one
digit too many. -/
theorem parse_iff_spells_up_to_terminators :
    parse "007:cpu,:/a:b\r\n\r".toList = .ok ⟨7, ["cpu".toList, []], "/a:b".toList⟩ ∧
      parse "99999999999999999999::/\n".toList = .error ⟨"99999999999999999999::/".toList⟩ := by
  constructor
  · obtain ⟨t, htrim, hread, -, -⟩ := parse_iff_spells "007:cpu,:/a:b\r\n\r".toList
    obtain rfl := (htrim "007:cpu,:/a:b".toList).1 ⟨⟨"\r\n\r".toList, by decide, by simp⟩, by simp⟩
    have hseven : Numeral "007".toList 7 := readDecimal?_eq_some_iff.1 (by decide)
    exact (hread _).2 ⟨"007".toList, "cpu,".toList, by decide, hseven, by decide, by decide, by decide, by decide⟩
  · obtain ⟨t, htrim, -, -, hrefused⟩ := parse_iff_spells "99999999999999999999::/\n".toList
    obtain rfl := (htrim "99999999999999999999::/".toList).1 ⟨⟨"\n".toList, by decide, by simp⟩, by simp⟩
    refine hrefused ?_
    rintro ⟨number, field, e, h⟩
    have hnone : ofFields? "99999999999999999999::/".toList = none := by decide
    rw [ofFields?_eq_some_iff_spells.2 ⟨number, field, h⟩] at hnone
    cases hnone

end CgroupMembership.Entry
