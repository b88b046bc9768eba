import CgroupMembership.Stream.Basic
/-!
# The first answers of a stream

What a scan sees of a stream is some lines that it does not want and then the answer at which it stops.
Where it stops at all there is such a beginning (`exists_yields_of_halts`), and two streams that agree up
to the stop have the same one (`yields_of_agrees`).
-/

namespace CgroupMembership.LineStream

variable {s t : LineStream} {wanted : Text → Bool} {n : Nat} {front : List Text} {p : Pull}

/-- From request `n` on the answers are these lines and then this one. -/
def Yields (s : LineStream) (n : Nat) : List Text → Pull → Prop
  | [], p => s.pull n = p
  | line :: front, p => s.pull n = .line line ∧ s.Yields (n + 1) front p

/-- The answers of both streams are the same up to and including the first at which a scan stops. -/
def Agrees (wanted : Text → Bool) (s t : LineStream) : Prop :=
  ∀ n, (∀ m < n, (s.pull m).stops wanted = false) → t.pull n = s.pull n

theorem Yields.halts (h : s.Yields n front p) (hp : p.stops wanted = true) : s.Halts wanted := by
  induction front generalizing n with
  | nil => exact ⟨n, by rwa [show s.pull n = p from h]⟩
  | cons line front ih => exact ih h.2

theorem exists_line_of_not_stops (h : p.stops wanted = false) :
    ∃ line, p = .line line ∧ wanted line = false := by
  cases p with
  | line line => exact ⟨line, rfl, h⟩
  | failure e => cases h
  | finished => cases h

theorem exists_yields_of_stops {k : Nat} (h : (s.pull (n + k)).stops wanted = true) :
    ∃ front p, s.Yields n front p ∧ (∀ line ∈ front, wanted line = false) ∧ p.stops wanted = true := by
  induction k generalizing n with
  | zero => exact ⟨[], _, rfl, List.forall_mem_nil _, h⟩
  | succ k ih =>
    cases hn : (s.pull n).stops wanted with
    | true => exact ⟨[], _, rfl, List.forall_mem_nil _, hn⟩
    | false =>
      obtain ⟨line, hl, hw⟩ := exists_line_of_not_stops hn
      obtain ⟨front, p, hy, hf, hp⟩ := ih (n := n + 1) (by rwa [Nat.add_right_comm])
      exact ⟨line :: front, p, ⟨hl, hy⟩, List.forall_mem_cons.2 ⟨hw, hf⟩, hp⟩

theorem exists_yields_of_halts (h : s.Halts wanted) :
    ∃ front p, s.Yields 0 front p ∧ (∀ line ∈ front, wanted line = false) ∧ p.stops wanted = true := by
  obtain ⟨k, hk⟩ := h
  exact exists_yields_of_stops (by rwa [Nat.zero_add])

theorem yields_of_agrees (h : Agrees wanted s t) (hy : s.Yields n front p)
    (hf : ∀ line ∈ front, wanted line = false) (hn : ∀ m < n, (s.pull m).stops wanted = false) :
    t.Yields n front p := by
  induction front generalizing n with
  | nil => exact (h n hn).trans hy
  | cons line front ih =>
    obtain ⟨hl, hf⟩ := List.forall_mem_cons.1 hf
    refine ⟨(h n hn).trans hy.1, ih hy.2 hf fun m hm => ?_⟩
    rcases Nat.lt_succ_iff_lt_or_eq.1 hm with hlt | rfl
    · exact hn m hlt
    · rw [hy.1]
      exact hl

end CgroupMembership.LineStream
