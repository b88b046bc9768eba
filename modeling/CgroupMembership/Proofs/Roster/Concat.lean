import CgroupMembership.Proofs.Roster.Strictness
import CgroupMembership.Proofs.Text.Cuts
import CgroupMembership.Proofs.Text.Lines
/-!
# One file after another

Two contents with a newline between them have the lines of the one and then those of the other
(`lines_append`), but for the end of the last line of the first: it gets a newline, or a blank line comes
after it. Reading does not see that (`parseFrom_lines_concat`), and it may begin anywhere, with any number and
any roster (`parseFrom_readOn`). So the strict reading of both is made of the readings of each
(`parse_append_newline`).
-/

namespace CgroupMembership

/-! ## Lines -/

namespace Terminator

variable {α : Type} [DecidableEq α] (e : Terminator α)

theorem lines_append (us vs : List α) :
    e.lines (us ++ e.newline :: vs) = e.lines (us ++ [e.newline]) ++ e.lines vs := by
  induction us using e.newline_induction with
  | last us h =>
    rw [lines_append_newline e h, lines_append_newline e h]
    rfl
  | line us rest h ih =>
    rw [List.append_assoc, List.append_assoc, List.cons_append, List.cons_append, lines_append_newline e h,
      lines_append_newline e h, ih]
    rfl

theorem length_lines_concat (us : List α) :
    (e.lines (us ++ [e.newline])).length = us.count e.newline + 1 := by
  induction us using e.newline_induction with
  | last us h =>
    rw [lines_append_newline e h, List.count_eq_zero_of_not_mem h]
    rfl
  | line us rest h ih =>
    rw [List.append_assoc, List.cons_append, lines_append_newline e h, List.length_cons, ih,
      List.count_append, List.count_eq_zero_of_not_mem h, List.count_cons_self, Nat.zero_add]

theorem dropReturn_eq (us : List α) : e.dropReturn us = us ∨ us = e.dropReturn us ++ [e.carriageReturn] := by
  by_cases h : us.getLast? = some e.carriageReturn
  · obtain ⟨vs, rfl⟩ := List.getLast?_eq_some_iff.1 h
    rw [dropReturn_append_return]
    exact .inr rfl
  · exact .inl (e.dropReturn_of_getLast? h)

end Terminator

namespace Text

theorem isBlank_dropReturn (line : Text) : isBlank (terminator.dropReturn line) = isBlank line := by
  rcases terminator.dropReturn_eq line with h | h
  · rw [h]
  · conv => rhs; rw [h]
    rw [isBlank, isBlank, List.all_append]
    simp [terminator, show isBlankChar '\r' = true by decide]

end Text

theorem Entry.parse_dropReturn (line : Text) : parse (Text.terminator.dropReturn line) = parse line := by
  rcases Text.terminator.dropReturn_eq line with h | h
  · rw [h]
  · conv => rhs; rw [h]
    rw [parse, parse, Text.trimEnd_append _ (by simp [isTerminator, Text.terminator])]

namespace Roster

/-! ## Reading in parts -/

/-- The records of one roster and then those of another, whose ids win. -/
def append (r r' : Roster) : Roster :=
  ⟨⟨r'.identity.container.or r.identity.container, r'.identity.pod.or r.identity.pod⟩, r.records ++ r'.records⟩

theorem append_empty (r : Roster) : r.append empty = r := by
  simp [append, empty, Identity.unknown]

theorem append_push (r r' : Roster) (record : Record) : (r.append r').push record = r.append (r'.push record) := by
  simp [append, push, Identity.learn, Option.or_assoc]

theorem parseFrom_append (number : Nat) (r : Roster) (front back : List Text) :
    parseFrom number r (front ++ back) =
      match parseFrom number r front with
      | .ok r' => parseFrom (number + front.length) r' back
      | .error e => .error e := by
  induction front generalizing number r with
  | nil => rfl
  | cons line front ih =>
    have hn : number + (line :: front).length = number + 1 + front.length := by
      rw [List.length_cons]
      omega
    rw [List.cons_append, parseFrom, parseFrom, hn]
    split
    · exact ih _ _
    · split
      · exact ih _ _
      · rfl

/-- The result of reading on from a roster, `k` lines further down. -/
def readOn (k : Nat) (r : Roster) : Except ParseError Roster → Except ParseError Roster
  | .ok r' => .ok (r.append r')
  | .error e => .error ⟨e.lineNumber + k, e.cause⟩

theorem parseFrom_readOn (k number : Nat) (r r' : Roster) (lines : List Text) :
    parseFrom (number + k) (r.append r') lines = readOn k r (parseFrom number r' lines) := by
  induction lines generalizing number r' with
  | nil => rfl
  | cons line lines ih =>
    rw [parseFrom, parseFrom, Nat.add_right_comm]
    split
    · exact ih _ _
    · split
      · rw [append_push]
        exact ih _ _
      · rfl

/-- Whether the last line has a newline does not matter. -/
theorem parseFrom_lines_concat (number : Nat) (r : Roster) (content : Text) :
    parseFrom number r (Text.lines (content ++ ['\n'])) = parseFrom number r (Text.lines content) := by
  induction content using Text.terminator.newline_induction generalizing number r with
  | last us h =>
    have hl : Text.lines (us ++ ['\n']) = [Text.terminator.dropReturn us] :=
      Text.terminator.lines_append_newline h []
    have hl' : Text.lines us = if us.isEmpty then [] else [us] := Text.terminator.lines_of_not_mem h
    rw [hl, hl', parseFrom, Text.isBlank_dropReturn, Entry.parse_dropReturn]
    cases us with
    | nil => rfl
    | cons c us => rfl
  | line us rest h ih =>
    have hl (content : Text) : Text.lines (us ++ Text.terminator.newline :: content) =
        Text.terminator.dropReturn us :: Text.lines content :=
      Text.terminator.lines_append_newline h content
    have hfirst := parseFrom_append number r [Text.terminator.dropReturn us]
    simp only [List.singleton_append] at hfirst
    rw [List.append_assoc, List.cons_append, hl, hl, hfirst (Text.lines (rest ++ ['\n'])), hfirst (Text.lines rest)]
    simp only [ih]

/-- The strict reading of two contents with a newline between them fails with the first error of either, whose
number counts the lines of both, and otherwise gives the records of both with the ids found last. -/
theorem parse_append_newline (a b : Text) :
    parse (a ++ '\n' :: b) =
      match parse a, parse b with
      | .error e, _ => .error e
      | .ok _, .error e => .error ⟨e.lineNumber + (a.count '\n' + 1), e.cause⟩
      | .ok r, .ok r' =>
        .ok ⟨⟨r'.identity.container.or r.identity.container, r'.identity.pod.or r.identity.pod⟩,
          r.records ++ r'.records⟩ := by
  have hlines : Text.lines (a ++ '\n' :: b) = Text.lines (a ++ ['\n']) ++ Text.lines b :=
    Text.terminator.lines_append a b
  have hlength : (Text.lines (a ++ ['\n'])).length = a.count '\n' + 1 :=
    Text.terminator.length_lines_concat a
  have hfirst : parseFrom 1 empty (Text.lines (a ++ ['\n'])) = parse a :=
    parseFrom_lines_concat 1 empty a
  have hsecond (r : Roster) : parseFrom (1 + (a.count '\n' + 1)) r (Text.lines b) =
      readOn (a.count '\n' + 1) r (parse b) := by
    have := parseFrom_readOn (a.count '\n' + 1) 1 r empty (Text.lines b)
    rwa [append_empty] at this
  rw [parse, hlines, parseFrom_append, hlength, hfirst]
  cases parse a with
  | error e => rfl
  | ok r =>
    refine (hsecond r).trans ?_
    cases parse b with
    | error e => rfl
    | ok r' => rfl

end Roster

end CgroupMembership
