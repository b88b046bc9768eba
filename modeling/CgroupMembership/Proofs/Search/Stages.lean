import CgroupMembership.Proofs.Search.Taken
/-!
# Searches followed to their end

A search made request by request comes to its end just if the search as a whole is defined, and then with
the same finding and the same events (`exists_advances_eq_ended_iff`). So nothing is decided ahead of the requests.
-/

namespace CgroupMembership.Stage

variable {mode : Mode} {s : Source} {stream : LineStream} {n : Nat} {front : List Text} {p : Pull}

theorem advances_ended (s : Source) (n : Nat) (found : mode.Finding) :
    advances s n (.ended found) = ⟨.ended found, []⟩ := by
  induction n with
  | zero => rfl
  | succ n ih => simp [advances, advance, Traced.andThen, ih]

/-! ## Reading -/

theorem advance_reading_of_stops (found : mode.Finding) (h : (stream.pull n).stops mode.wants = true) :
    advance s (.reading stream n found) = (mode.takePull found (stream.pull n)).map .ended := by
  simp [advance, h]

theorem advance_reading_of_line (found : mode.Finding) {line : Text} (h : stream.pull n = .line line)
    (hl : mode.wants line = false) :
    advance s (.reading stream n found) =
      (mode.takePull found (.line line)).map (.reading stream (n + 1)) := by
  simp [advance, h, Pull.stops, hl]

theorem advances_of_yields (found : mode.Finding) (hy : stream.Yields n front p)
    (hf : ∀ line ∈ front, mode.wants line = false) (hp : p.stops mode.wants = true) :
    advances s (front.length + 1) (.reading stream n found) = (mode.takeUntil found front p).map .ended := by
  induction front generalizing n found with
  | nil =>
    have hn : stream.pull n = p := hy
    rw [List.length_nil, advances, advance_reading_of_stops found (hn ▸ hp), hn]
    simp [advances, Traced.ext_iff, Mode.takeUntil, Mode.takeAll]
  | cons line front ih =>
    obtain ⟨hl, hf⟩ := List.forall_mem_cons.1 hf
    rw [List.length_cons, advances, advance_reading_of_line found hy.1 hl, Mode.takeUntil_cons]
    simp [Traced.ext_iff, ih _ hy.2 hf]

theorem yields_of_advances {k : Nat} {found result : mode.Finding} {trace : Trace}
    (h : advances s k (.reading stream n found) = ⟨.ended result, trace⟩) :
    ∃ front p, stream.Yields n front p ∧ (∀ line ∈ front, mode.wants line = false) ∧
      p.stops mode.wants = true ∧ mode.takeUntil found front p = ⟨result, trace⟩ := by
  induction k generalizing n found trace with
  | zero => simp [advances] at h
  | succ k ih =>
    rw [advances] at h
    cases hs : (stream.pull n).stops mode.wants with
    | true =>
      rw [advance_reading_of_stops found hs] at h
      refine ⟨[], _, rfl, List.forall_mem_nil _, hs, ?_⟩
      simpa [Traced.andThen, advances_ended, Mode.takeUntil, Mode.takeAll, Traced.ext_iff] using h
    | false =>
      obtain ⟨line, hn, hl⟩ := LineStream.exists_line_of_not_stops hs
      rw [advance_reading_of_line found hn hl] at h
      simp only [Traced.andThen, Traced.map_value, Traced.mk.injEq] at h
      obtain ⟨front, p, hy, hf, hp, ht⟩ := ih (Traced.ext h.1 rfl)
      refine ⟨line :: front, p, ⟨hn, hy⟩, List.forall_mem_cons.2 ⟨hl, hf⟩, hp, ?_⟩
      rw [Mode.takeUntil_cons, Traced.andThen, ht, ← h.2]
      rfl

/-! ## From the beginning -/

theorem advance_locating_of_absent (hp : s.askPresent.value = false) :
    advance s (.locating : Stage mode) =
      ⟨.ended mode.nothing, s.askPresent.trace ++ [.logged .noSource]⟩ := by
  simp [advance, hp, Traced.ext_iff]

theorem advance_locating_of_present (hp : s.presence = .ok true) :
    advance s (.locating : Stage mode) = ⟨.opening, [.called .present]⟩ := by
  simp [advance, Source.askPresent_of_present hp, Traced.ext_iff]

theorem advances_two_of_unopened (hp : s.presence = .ok true) {e : OpenError} (hl : s.lines = .error e) :
    advances s 2 (.locating : Stage mode) =
      ⟨.ended mode.nothing, [.called .present, .called .lines, .logged (.unreadableSource e)]⟩ := by
  simp [advances, advance, Source.askPresent_of_present hp, Source.askLines, hl, Traced.ext_iff]

theorem advances_two_of_opened (hp : s.presence = .ok true) (hl : s.lines = .ok stream) :
    advances s 2 (.locating : Stage mode) =
      ⟨.reading stream 0 mode.nothing, [.called .present, .called .lines]⟩ := by
  simp [advances, advance, Source.askPresent_of_present hp, Source.askLines, hl, Traced.ext_iff]

/-- Every request but the last has an event, so a search has not many more requests than events. -/
theorem exists_advances_le (h : s.Halts mode.wants) :
    ∃ k ≤ (s.search mode h).trace.length + 1, advances s k .locating = (s.search mode h).map .ended := by
  cases hp : s.askPresent.value with
  | false =>
    refine ⟨1, Nat.le_add_left 1 _, ?_⟩
    rw [Source.search_of_absent h hp]
    simp [advances, advance_locating_of_absent hp, Traced.ext_iff]
  | true =>
    have hpr := Source.presence_of_askPresent hp
    cases hl : s.lines with
    | error e =>
      rw [Source.search_of_unopened h hpr hl]
      exact ⟨2, by simp, advances_two_of_unopened hpr hl⟩
    | ok stream =>
      obtain ⟨front, p, hy, hf, hs⟩ := LineStream.exists_yields_of_halts (h hp stream hl)
      rw [Source.search_of_beginsWith h ⟨hpr, stream, hl, hy⟩ hf hs]
      refine ⟨2 + (front.length + 1), ?_, ?_⟩
      · have hpulled := Mode.pulled_takeUntil mode.nothing front p
        have hle : Trace.pulled (mode.takeUntil mode.nothing front p).trace ≤ _ := List.countP_le_length
        simp only [List.length_append, List.length_cons, List.length_nil]
        omega
      · rw [advances_add, advances_two_of_opened hpr hl, Traced.andThen, advances_of_yields _ hy hf hs]
        rfl

theorem exists_advances_eq_ended (h : s.Halts mode.wants) :
    ∃ k, advances s k .locating = (s.search mode h).map .ended := by
  obtain ⟨k, -, hk⟩ := exists_advances_le h
  exact ⟨k, hk⟩

theorem search_of_advances {k : Nat} {result : mode.Finding} {trace : Trace}
    (h : advances s k .locating = ⟨.ended result, trace⟩) :
    ∃ hs : s.Halts mode.wants, s.search mode hs = ⟨result, trace⟩ := by
  cases hp : s.askPresent.value with
  | false =>
    have hs : s.Halts mode.wants := fun ht => absurd ht (by simp [hp])
    refine ⟨hs, ?_⟩
    cases k with
    | zero => simp [advances] at h
    | succ k =>
      rw [Source.search_of_absent hs hp]
      simpa [advances, advance_locating_of_absent hp, advances_ended, Traced.ext_iff] using h
  | true =>
    have hpr := Source.presence_of_askPresent hp
    -- A source that is there is over after its second request at the earliest.
    have hk : 2 ≤ k := by
      refine Nat.le_of_not_lt fun hlt => ?_
      obtain rfl | rfl : k = 0 ∨ k = 1 := by omega
      · simp [advances] at h
      · simp [advances, advance_locating_of_present hpr, Traced.ext_iff] at h
    obtain ⟨k, rfl⟩ := Nat.exists_eq_add_of_le hk
    rw [advances_add] at h
    cases hl : s.lines with
    | error e =>
      have hs : s.Halts mode.wants := fun _ stream ht => by simp [hl] at ht
      refine ⟨hs, ?_⟩
      rw [Source.search_of_unopened hs hpr hl]
      simpa [advances_two_of_unopened hpr hl, advances_ended, Traced.ext_iff] using h
    | ok stream =>
      rw [advances_two_of_opened hpr hl] at h
      simp only [Traced.andThen, Traced.mk.injEq] at h
      obtain ⟨front, p, hy, hf, hst, ht⟩ := yields_of_advances (Traced.ext h.1 rfl)
      have hb : s.BeginsWith front p := ⟨hpr, stream, hl, hy⟩
      refine ⟨hb.halts hst, ?_⟩
      rw [Source.search_of_beginsWith _ hb hf hst, ht, ← h.2]

/-- A search made request by request ends just if the whole search is defined, with the same result and
the same events. -/
theorem exists_advances_eq_ended_iff {result : mode.Finding} {trace : Trace} :
    (∃ k, advances s k .locating = ⟨.ended result, trace⟩) ↔
      ∃ h : s.Halts mode.wants, s.search mode h = ⟨result, trace⟩ := by
  constructor
  · rintro ⟨k, h⟩
    exact search_of_advances h
  · rintro ⟨h, hs⟩
    have := exists_advances_eq_ended h
    rwa [hs] at this

end CgroupMembership.Stage
