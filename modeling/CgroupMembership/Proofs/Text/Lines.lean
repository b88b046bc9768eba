import CgroupMembership.Text.Lines
/-!
# Lines, one newline at a time

The first newline of a text ends its first line, and the other lines are those of what follows
(`lines_append_newline`); a text without a newline is one line or none. `newline_induction` makes
these two equations enough to prove a property of all texts.
-/

namespace CgroupMembership.Terminator

variable {α : Type} [DecidableEq α] (e : Terminator α)

theorem linesFrom_of_not_mem {us : List α} (h : e.newline ∉ us) (line : List α) :
    e.linesFrom line us = if (line.reverse ++ us).isEmpty then [] else [line.reverse ++ us] := by
  induction us generalizing line with
  | nil => simp [linesFrom]
  | cons u us ih =>
    obtain ⟨hu, hus⟩ := not_or.1 (mt List.mem_cons.2 h)
    rw [linesFrom, if_neg (Ne.symm hu), ih hus]
    simp

theorem linesFrom_append_newline {us : List α} (h : e.newline ∉ us) (line rest : List α) :
    e.linesFrom line (us ++ e.newline :: rest) = e.dropReturn (line.reverse ++ us) :: e.lines rest := by
  induction us generalizing line with
  | nil => simp [linesFrom, lines]
  | cons u us ih =>
    obtain ⟨hu, hus⟩ := not_or.1 (mt List.mem_cons.2 h)
    rw [List.cons_append, linesFrom, if_neg (Ne.symm hu), ih hus]
    simp

theorem lines_of_not_mem {us : List α} (h : e.newline ∉ us) :
    e.lines us = if us.isEmpty then [] else [us] :=
  e.linesFrom_of_not_mem h []

theorem lines_append_newline {us : List α} (h : e.newline ∉ us) (rest : List α) :
    e.lines (us ++ e.newline :: rest) = e.dropReturn us :: e.lines rest :=
  e.linesFrom_append_newline h [] rest

/-- What holds of a text without a newline, and of one with a line more than a text it holds of, holds
of every text. -/
theorem newline_induction {P : List α → Prop} (last : ∀ us, e.newline ∉ us → P us)
    (line : ∀ us rest, e.newline ∉ us → P rest → P (us ++ e.newline :: rest)) (us : List α) : P us := by
  cases h : e.cutLine? us with
  | none => exact last us (e.cutLine?_eq_none_iff.1 h)
  | some p =>
    obtain ⟨rfl, hn⟩ := e.cutLine?_eq_some_iff.1 h
    exact line p.1 p.2 hn (newline_induction last line p.2)
termination_by us.length
decreasing_by simp_all; omega

/-! ## Carriage returns -/

theorem dropReturn_append_return (us : List α) : e.dropReturn (us ++ [e.carriageReturn]) = us := by
  simp [dropReturn]

theorem dropReturn_of_getLast? {us : List α} (h : us.getLast? ≠ some e.carriageReturn) :
    e.dropReturn us = us :=
  if_neg h

theorem mem_of_mem_dropReturn {us : List α} {u : α} (h : u ∈ e.dropReturn us) : u ∈ us := by
  unfold dropReturn at h
  split at h
  · exact List.dropLast_subset us h
  · exact h

theorem newline_not_mem_of_mem_lines (us : List α) : ∀ l ∈ e.lines us, e.newline ∉ l := by
  induction us using e.newline_induction with
  | last us h =>
    intro l hl
    rw [lines_of_not_mem e h] at hl
    split at hl
    · cases hl
    · rwa [List.mem_singleton.1 hl]
  | line us rest h ih =>
    rw [lines_append_newline e h]
    exact List.forall_mem_cons.2 ⟨fun hm => h (e.mem_of_mem_dropReturn hm), ih⟩

end CgroupMembership.Terminator
