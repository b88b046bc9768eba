import CgroupMembership.Proofs.Id.Candidate
import CgroupMembership.Proofs.Text.Bytes
/-!
# The grammar of a tail

`Offers` says which texts a tail offers as an id. They are what is read there (`atTail?_eq_some_iff`): a tail without
a colon is cut at its last dot and then at the last hyphen before that, and offers nothing if a hyphen stands after
the dot. The positions of these cuts may be counted in bytes as well (`byteBounds?_eq`), and all of them lie between
characters. `atTail?_reads_offer` sums this up.
-/

namespace CgroupMembership.ContainerId

open Text

/-- The text is what follows the last slash of the line. -/
def IsTail (line s : Text) : Prop :=
  '/' ∉ s ∧ (line = s ∨ ∃ front, line = front ++ '/' :: s)

/-- The place of an id in the tail `s`: after a colon, or in a tail without colon after a hyphen or nothing and
before a final dot or nothing. -/
inductive Offers (s cand : Text) : Prop
  | colon (x : Text) (hs : s = x ++ ':' :: cand)
  | hyphen (x z : Text) (hcolon : ':' ∉ s) (hs : s = x ++ cand ++ z) (hx : EndsAtHyphen x) (hz : BeginsAtDot s z)

/-- The positions in bytes between which the candidate stands, if they are in order. -/
def byteBounds? (tail : Text) : Option (Nat × Nat) :=
  match lastByteIndexOf? ':' tail with
  | some colon => some (colon + 1, byteLength tail)
  | none =>
    let start := ((lastByteIndexOf? '-' tail).map (· + 1)).getD 0
    let stop := (lastByteIndexOf? '.' tail).getD (byteLength tail)
    if start ≤ stop then some (start, stop) else none

theorem isTail_iff {line s : Text} : IsTail line s ↔ s = afterLast '/' line := by
  constructor
  · rintro ⟨hs, rfl | ⟨front, rfl⟩⟩
    · exact (afterLast_of_not_mem hs).symm
    · exact (afterLast_append_cons front hs).symm
  · rintro rfl
    refine ⟨not_mem_afterLast '/' line, ?_⟩
    by_cases hm : '/' ∈ line
    · exact .inr (exists_eq_append_afterLast hm)
    · exact .inl (afterLast_of_not_mem hm).symm

/-! ## Cutting a tail -/

theorem exists_hyphen_cut (t : Text) : ∃ x cand, t = x ++ cand ∧ EndsAtHyphen x ∧ '-' ∉ cand := by
  by_cases hm : '-' ∈ t
  · obtain ⟨y, hy⟩ := exists_eq_append_afterLast hm
    exact ⟨y ++ ['-'], afterLast '-' t, by simpa using hy, .inr ⟨y, rfl⟩, not_mem_afterLast '-' t⟩
  · exact ⟨[], t, rfl, .inl rfl, hm⟩

/-- A tail is cut at its last dot, or a hyphen stands after that. -/
theorem exists_dot_cut (t : Text) :
    (∃ front z, t = front ++ z ∧ BeginsAtDot t z) ∨
      ∃ front r, t = front ++ '.' :: r ∧ '.' ∉ r ∧ '-' ∈ r := by
  by_cases hm : '.' ∈ t
  · obtain ⟨front, hfront⟩ := exists_eq_append_afterLast hm
    have hr := not_mem_afterLast '.' t
    by_cases hhyphen : '-' ∈ afterLast '.' t
    · exact .inr ⟨front, _, hfront, hr, hhyphen⟩
    · exact .inl ⟨front, _, hfront, .inr ⟨_, rfl, hr, hhyphen⟩⟩
  · exact .inl ⟨t, [], (List.append_nil t).symm, .inl ⟨rfl, hm⟩⟩

theorem candidateBounds?_of_crossed {front r : Text} (hcolon : ':' ∉ front ++ '.' :: r) (hr : '.' ∉ r)
    (hhyphen : '-' ∈ r) : candidateBounds? (front ++ '.' :: r) = none := by
  obtain ⟨y, hy⟩ := exists_eq_append_afterLast hhyphen
  have hb := not_mem_afterLast '-' r
  generalize afterLast '-' r = b at hy hb
  have hstart : lastIndexOf? '-' (front ++ '.' :: r) = some (front ++ '.' :: y).length := by
    rw [hy, ← List.cons_append, ← List.append_assoc]
    exact lastIndexOf?_append_cons _ hb
  have hstop : lastIndexOf? '.' (front ++ '.' :: r) = some front.length := lastIndexOf?_append_cons front hr
  simp only [candidateBounds?, lastIndexOf?_of_not_mem hcolon, hstart, hstop, Option.map_some, Option.getD_some]
  have hlt : front.length < (front ++ '.' :: y).length + 1 := by
    simp only [List.length_append, List.length_cons]
    omega
  exact if_neg (Nat.not_le.2 hlt)

/-! ## What is read -/

theorem BeginsAtDot.of_eq {s x cand z : Text} (hs : s = x ++ cand ++ z) (hz : BeginsAtDot s z) :
    BeginsAtDot (x ++ cand) z := by
  rcases hz with ⟨rfl, hdot⟩ | hz
  · rw [List.append_nil] at hs
    exact .inl ⟨rfl, hs ▸ hdot⟩
  · exact .inr hz

/-- What a tail offers is read. -/
theorem atTail?_of_offers {line cand : Text} (h : Offers (afterLast '/' line) cand) (hhex : isHexNumber cand = true) :
    atTail? line = (ofText cand).toOption := by
  cases h with
  | colon x hs => exact atTail?_of_colon hs (not_mem_of_isHexNumber hhex (by decide))
  | hyphen x z hcolon hs hx hz =>
    rw [hs] at hcolon
    exact atTail?_of_hyphen hs hcolon hx (not_mem_of_isHexNumber hhex (by decide)) (hz.of_eq hs)

/-- What is read has been offered, unless the bounds are not in order. -/
theorem exists_offers (line : Text) :
    (∃ cand, Offers (afterLast '/' line) cand ∧ atTail? line = (ofText cand).toOption) ∨
      atTail? line = none := by
  by_cases hcolon : ':' ∈ afterLast '/' line
  · obtain ⟨x, hx⟩ := exists_eq_append_afterLast hcolon
    exact .inl ⟨_, .colon x hx, atTail?_of_colon hx (not_mem_afterLast ':' _)⟩
  · rcases exists_dot_cut (afterLast '/' line) with ⟨front, z, hs, hz⟩ | ⟨front, r, hs, hr, hhyphen⟩
    · obtain ⟨x, cand, rfl, hx, hcand⟩ := exists_hyphen_cut front
      exact .inl ⟨cand, .hyphen x z hcolon hs hx hz,
        atTail?_of_hyphen hs (hs ▸ hcolon) hx hcand (hz.of_eq hs)⟩
    · rw [hs] at hcolon
      exact .inr (by simp [atTail?, hs, candidateBounds?_of_crossed hcolon hr hhyphen])

theorem atTail?_eq_some_iff {line : Text} {c : ContainerId} :
    atTail? line = some c ↔
      ∃ cand, isHexNumber cand = true ∧ Offers (afterLast '/' line) cand ∧ c.digits = toLower cand := by
  constructor
  · intro h
    rcases exists_offers line with ⟨cand, hoffers, hread⟩ | hnone
    · obtain ⟨hhex, hc⟩ := toOption_ofText_eq_some_iff.1 (hread.symm.trans h)
      exact ⟨cand, hhex, hoffers, hc⟩
    · rw [h] at hnone
      cases hnone
  · rintro ⟨cand, hhex, hoffers, hc⟩
    rw [atTail?_of_offers hoffers hhex]
    exact toOption_ofText_eq_some_iff.2 ⟨hhex, hc⟩

/-! ## Bounds in bytes -/

theorem lastByteIndexOf?_eq (sep : Char) (t : Text) :
    lastByteIndexOf? sep t = (lastIndexOf? sep t).map fun i => byteLength (t.take i) := by
  rw [lastByteIndexOf?, lastIndexOf?, Option.map_map]
  refine Option.map_congr fun p hp => ?_
  obtain ⟨rfl, -⟩ := splitLast?_eq_some_iff.1 hp
  simp

/-- A separator has one byte, so the position after it is one more in bytes as in characters. -/
theorem byteLength_take_succ {sep : Char} {t : Text} {i : Nat} (hsep : sep.utf8Size = 1)
    (h : lastIndexOf? sep t = some i) : byteLength (t.take (i + 1)) = byteLength (t.take i) + 1 := by
  obtain ⟨⟨a, b⟩, hs, rfl⟩ := Option.map_eq_some_iff.1 h
  obtain ⟨rfl, -⟩ := splitLast?_eq_some_iff.1 hs
  have hafter : (a ++ sep :: b).take (a.length + 1) = a ++ [sep] := by
    rw [List.append_cons]
    exact List.take_left' (by simp)
  rw [hafter, List.take_left, byteLength_append]
  simp [byteLength, hsep]

theorem byteBounds?_eq (tail : Text) :
    byteBounds? tail =
      (candidateBounds? tail).map fun b => (byteLength (tail.take b.1), byteLength (tail.take b.2)) := by
  have hstart : ((lastByteIndexOf? '-' tail).map (· + 1)).getD 0 =
      byteLength (tail.take (((lastIndexOf? '-' tail).map (· + 1)).getD 0)) := by
    rw [lastByteIndexOf?_eq]
    cases h : lastIndexOf? '-' tail with
    | none => rfl
    | some i => exact (byteLength_take_succ (by decide) h).symm
  have hstop : (lastByteIndexOf? '.' tail).getD (byteLength tail) =
      byteLength (tail.take ((lastIndexOf? '.' tail).getD tail.length)) := by
    rw [lastByteIndexOf?_eq]
    cases lastIndexOf? '.' tail with
    | none => simp
    | some j => rfl
  have hle : ((lastIndexOf? '-' tail).map (· + 1)).getD 0 ≤ tail.length := by
    cases h : lastIndexOf? '-' tail with
    | none => simp
    | some i => exact lastIndexOf?_lt h
  simp only [byteBounds?, candidateBounds?, hstart, hstop, byteLength_take_le_iff hle]
  rw [lastByteIndexOf?_eq]
  cases h : lastIndexOf? ':' tail with
  | some i => simp [byteLength_take_succ (by decide) h]
  | none =>
    simp only [Option.map_none]
    split
    · rfl
    · rfl

/-- The text between the bounds in bytes is what is read. -/
theorem slicedAt_byteBounds? {line : Text} {start stop : Nat}
    (h : byteBounds? (afterLast '/' line) = some (start, stop)) :
    ∃ u, SlicedAt (afterLast '/' line) start stop u ∧ atTail? line = (ofText u).toOption := by
  rw [byteBounds?_eq] at h
  obtain ⟨b, hb, he⟩ := Option.map_eq_some_iff.1 h
  obtain ⟨rfl, rfl⟩ := Prod.mk.inj he
  exact ⟨_, slicedAt_take (bounds_le hb).1, by simp only [atTail?, hb, Option.bind_some]⟩

/-- The id at the tail of a line is the one that the tail offers, in lower case; there is none in other tails, such
as those with a hyphen after the last dot. The tail is cut at byte positions that are in order, in range and between
characters. -/
theorem atTail?_reads_offer (line : Text) :
    ∃ s, (∀ u, IsTail line u ↔ u = s) ∧
      (∀ c, atTail? line = some c ↔
        ∃ cand, (cand ≠ [] ∧ ∀ d ∈ cand, isHexDigit d = true) ∧ Offers s cand ∧ c.digits = toLower cand) ∧
      ((¬∃ cand, (cand ≠ [] ∧ ∀ d ∈ cand, isHexDigit d = true) ∧ Offers s cand) →
        atTail? line = none) ∧
      (∀ front r, s = front ++ '.' :: r → '.' ∉ r → '-' ∈ r → ':' ∉ s → atTail? line = none) ∧
      (byteBounds? s = none → atTail? line = none) ∧
      ∀ start stop, byteBounds? s = some (start, stop) →
        ∃ u, SlicedAt s start stop u ∧ atTail? line = (ofText u).toOption := by
  have hread {c : ContainerId} : atTail? line = some c ↔
      ∃ cand, (cand ≠ [] ∧ ∀ d ∈ cand, isHexDigit d = true) ∧ Offers (afterLast '/' line) cand ∧
        c.digits = toLower cand := by
    simp only [atTail?_eq_some_iff, isHexNumber_iff]
  have hbounds (h : candidateBounds? (afterLast '/' line) = none) : atTail? line = none := by
    simp only [atTail?, h, Option.bind_none]
  refine ⟨afterLast '/' line, fun u => isTail_iff, fun c => hread, fun hnone => ?_, ?_, fun h => ?_,
    fun start stop => slicedAt_byteBounds?⟩
  · rw [Option.eq_none_iff_forall_ne_some]
    intro c hc
    obtain ⟨cand, hhex, hoffers, -⟩ := hread.1 hc
    exact hnone ⟨cand, hhex, hoffers⟩
  · intro front r hs hr hhyphen hcolon
    rw [hs] at hcolon
    exact hbounds (hs ▸ candidateBounds?_of_crossed hcolon hr hhyphen)
  · rw [byteBounds?_eq, Option.map_eq_none_iff] at h
    exact hbounds h

/-- Between characters of two bytes each the positions in bytes are not those in characters. -/
theorem atTail?_reads_offer_between_wide_characters :
    let s := "\u00e9-\u00fc-DEADbeef.scop\u00e9".toList
    let line := "0::/a.slice/".toList ++ s
    ∃ c : ContainerId, c.digits = "deadbeef".toList ∧ atTail? line = some c ∧
      candidateBounds? s = some (4, 12) ∧ ∃ u, SlicedAt s 6 14 u ∧ atTail? line = (ofText u).toOption := by
  intro s line
  let c : ContainerId := ⟨"deadbeef".toList, by decide, by decide⟩
  obtain ⟨t, htail, hread, -, -, -, hcut⟩ := atTail?_reads_offer line
  obtain rfl := (htail s).1 ⟨by decide, .inr ⟨"0::/a.slice".toList, by decide⟩⟩
  have hx : EndsAtHyphen "\u00e9-\u00fc-".toList := .inr ⟨"\u00e9-\u00fc".toList, by decide⟩
  have hz : BeginsAtDot s ".scop\u00e9".toList := .inr ⟨"scop\u00e9".toList, by decide, by decide, by decide⟩
  have hoffers : Offers s "DEADbeef".toList := .hyphen _ _ (by decide) (by decide) hx hz
  have hid : atTail? line = some c := (hread c).2 ⟨"DEADbeef".toList, isHexNumber_iff.1 (by decide), hoffers, by decide⟩
  exact ⟨c, rfl, hid, by decide, hcut 6 14 (by decide)⟩

end CgroupMembership.ContainerId
