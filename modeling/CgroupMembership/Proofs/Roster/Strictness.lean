import CgroupMembership.Roster.Basic
/-!
# Strict and lenient reading

Both readings treat one line alike, except that one goes on after a malformed line (`parseFrom_cons`). So
they agree on content without such a line, and the strict one fails at the first that the lenient one
logs (`parse_agrees_with_collect`).
-/

namespace CgroupMembership.Roster

/-- The line is blank or holds an entry. -/
def Acceptable (line : Text) : Prop :=
  Text.isBlank line = true ∨ ∃ e, Entry.parse line = .ok e

/-- The line is neither blank nor an entry, for this reason. -/
def Rejected (line : Text) (cause : MalformedLine) : Prop :=
  Text.isBlank line = false ∧ Entry.parse line = .error cause

/-! ## One line -/

theorem enroll_of_acceptable (r : Roster) {line : Text} (h : Acceptable line) :
    (r.enroll line).2 = none := by
  unfold enroll
  split
  · rfl
  · rename_i hb
    obtain ⟨e, he⟩ := h.resolve_left hb
    rw [he]

theorem enroll_of_rejected (r : Roster) {line : Text} {cause : MalformedLine} (h : Rejected line cause) :
    r.enroll line = (r, some (.skippedLine cause)) := by
  simp [enroll, h.1, h.2]

/-- The strict reading enrolls a line and goes on, or it stops at a line that enrolling would log. -/
theorem parseFrom_cons (number : Nat) (r : Roster) (line : Text) (lines : List Text) :
    (Acceptable line ∧
      parseFrom number r (line :: lines) = parseFrom (number + 1) (r.enroll line).1 lines) ∨
    ∃ cause, Rejected line cause ∧ parseFrom number r (line :: lines) = .error ⟨number, cause⟩ := by
  rw [parseFrom]
  unfold enroll
  by_cases hb : Text.isBlank line = true
  · refine .inl ⟨.inl hb, ?_⟩
    simp [hb]
  · cases he : Entry.parse line with
    | ok e =>
      refine .inl ⟨.inr ⟨e, he⟩, ?_⟩
      simp [hb]
    | error cause =>
      refine .inr ⟨cause, ⟨by simpa using hb, he⟩, ?_⟩
      simp [hb]

theorem records_enroll (r : Roster) (line : Text) : r.records <+: (r.enroll line).1.records := by
  unfold enroll
  split
  · exact List.prefix_refl _
  · split
    · exact List.prefix_append ..
    · exact List.prefix_refl _

/-! ## All lines -/

theorem parseFrom_eq_ok_iff {number : Nat} {r r' : Roster} {lines : List Text} :
    parseFrom number r lines = .ok r' ↔ collectFrom r lines = (r', []) := by
  induction lines generalizing number r with
  | nil => simp [parseFrom, collectFrom]
  | cons line lines ih =>
    rw [collectFrom]
    rcases parseFrom_cons number r line lines with ⟨ha, hp⟩ | ⟨cause, hr, hp⟩
    · rw [hp, ih, enroll_of_acceptable r ha]
      simp [Prod.ext_iff]
    · simp [hp, enroll_of_rejected r hr]

theorem parseFrom_eq_error {number : Nat} {r : Roster} {lines : List Text} {e : ParseError}
    (h : parseFrom number r lines = .error e) :
    ∃ front line back, lines = front ++ line :: back ∧ e.lineNumber = number + front.length ∧
      Rejected line e.cause ∧ ∀ l ∈ front, Acceptable l := by
  induction lines generalizing number r with
  | nil => cases h
  | cons line lines ih =>
    rcases parseFrom_cons number r line lines with ⟨ha, hp⟩ | ⟨cause, hr, hp⟩
    · -- The line blamed is a later one, and the numbers have gone on by one.
      obtain ⟨front, bad, back, rfl, hnum, hbad, hfront⟩ := ih (hp ▸ h)
      refine ⟨line :: front, bad, back, rfl, ?_, hbad, List.forall_mem_cons.2 ⟨ha, hfront⟩⟩
      rw [hnum, List.length_cons]
      omega
    · rw [hp] at h
      cases h
      exact ⟨[], line, lines, rfl, rfl, hr, List.forall_mem_nil _⟩

theorem log_of_acceptable (r : Roster) {lines : List Text} (h : ∀ l ∈ lines, Acceptable l) :
    (r.collectFrom lines).2 = [] := by
  induction lines generalizing r with
  | nil => rfl
  | cons line lines ih =>
    obtain ⟨hl, hlines⟩ := List.forall_mem_cons.1 h
    rw [collectFrom, enroll_of_acceptable r hl, ih _ hlines]
    rfl

theorem records_collectFrom (r : Roster) (lines : List Text) :
    r.records <+: (r.collectFrom lines).1.records := by
  induction lines generalizing r with
  | nil => exact List.prefix_refl _
  | cons line lines ih => exact (r.records_enroll line).trans (ih _)

/-! ## Agreement -/

/-- What a strict error means for lines: which of them it blames, and what is logged and kept if they are
read leniently. -/
structure BlamesFirst (lines : List Text) (e : ParseError) : Prop where
  numbered : 1 ≤ e.lineNumber
  rejected : ∃ line, lines[e.lineNumber - 1]? = some line ∧ Rejected line e.cause
  acceptable : ∀ line ∈ lines.take (e.lineNumber - 1), Acceptable line
  logged : ∃ record, (collect lines).2.head? = some record ∧ record.level = .debug ∧
    record.message = "Skipping cgroup line: ".toList ++ e.cause.message
  kept : (collect (lines.take (e.lineNumber - 1))).1.records <+: (collect lines).1.records

theorem blamesFirst_of_parse {content : Text} {e : ParseError} (h : parse content = .error e) :
    BlamesFirst (Text.lines content) e := by
  obtain ⟨front, line, back, hl, hnum, hr, hfront⟩ := parseFrom_eq_error h
  have hn : e.lineNumber - 1 = front.length := by omega
  have ht : (front ++ line :: back).take (e.lineNumber - 1) = front := by rw [hn, List.take_left]
  have hc := collectFrom_append empty front (line :: back)
  rw [hl]
  refine ⟨by omega, ⟨line, ?_, hr⟩, ht.symm ▸ hfront, ⟨.skippedLine e.cause, ?_, rfl, rfl⟩, ?_⟩
  · simp [hn]
  · rw [collect, hc, log_of_acceptable empty hfront, collectFrom, enroll_of_rejected _ hr]
    rfl
  · rw [ht, collect, collect, hc]
    exact records_collectFrom _ (line :: back)

/-- Content is read strictly just if its lenient reading logs nothing, with the same roster; where it
cannot be, the error blames the first line that is logged. -/
theorem parse_agrees_with_collect (content : Text) :
    (∀ r, parse content = .ok r ↔ collect (Text.lines content) = (r, [])) ∧
      ∀ e, parse content = .error e → BlamesFirst (Text.lines content) e :=
  ⟨fun _ => parseFrom_eq_ok_iff, fun _ => blamesFirst_of_parse⟩

theorem parse_agrees_with_collect_at_line_three :
    let content := "0::/a\r\n\u2003\r\nno entry\r\n\n1:".toList
    parse content = .error ⟨3, ⟨"no entry".toList⟩⟩ ∧
      BlamesFirst (Text.lines content) ⟨3, ⟨"no entry".toList⟩⟩ := by
  intro content
  have h : parse content = .error ⟨3, ⟨"no entry".toList⟩⟩ := by rfl
  exact ⟨h, (parse_agrees_with_collect content).2 _ h⟩

end CgroupMembership.Roster
