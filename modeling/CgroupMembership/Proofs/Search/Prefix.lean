import CgroupMembership.Proofs.Search.Stages
/-!
# The detailed search keeps what comes before a failure

The detailed search takes a stream up to its first failure or its end. `roster_keepsPrefix` says that its
roster and its log are those of the lines before that, which are the lenient reading of these lines, and
counts what it asks and takes. Nothing that a source has to say afterwards matters, and neither does
whether it can be read.
-/

namespace CgroupMembership

/-! ## One answer -/

theorem Pull.stops_detailed_iff {p : Pull} : p.stops Mode.detailed.wants = true ↔ p.line? = none := by
  cases p <;> simp [stops, Mode.wants, line?]

theorem Mode.value_takePull_of_no_line {mode : Mode} (found : mode.Finding) {p : Pull} (h : p.line? = none) :
    (mode.takePull found p).value = found := by
  cases p with
  | line text => cases h
  | failure e => rfl
  | finished => rfl

theorem Mode.log_takePull_of_no_line {mode : Mode} (found : mode.Finding) {p : Pull} (h : p.line? = none) :
    (mode.takePull found p).trace.log = p.warnings := by
  cases p with
  | line text => cases h
  | failure e => rfl
  | finished => rfl

theorem Pull.level_of_mem_warnings {p : Pull} {record : LogRecord} (h : record ∈ p.warnings) :
    record.level = .warn := by
  cases p with
  | failure e => simp_all [warnings, LogRecord.readFailure, LogRecord.level]
  | line text => cases h
  | finished => cases h

/-! ## All lines -/

theorem Mode.value_takeAll_detailed (roster : Roster) (lines : List Text) :
    (Mode.detailed.takeAll roster lines).value = (roster.collectFrom lines).1 := by
  induction lines generalizing roster with
  | nil => rfl
  | cons line lines ih => exact ih (roster.enroll line).1

theorem Mode.log_takeAll_detailed (roster : Roster) (lines : List Text) :
    (Mode.detailed.takeAll roster lines).trace.log = (roster.collectFrom lines).2 := by
  induction lines generalizing roster with
  | nil => rfl
  | cons line lines ih =>
    have hl : (Mode.detailed.takePull roster (.line line)).trace.log = (roster.enroll line).2.toList :=
      Trace.log_map_logged _
    rw [takeAll, Traced.andThen_trace, Trace.log_append, hl]
    exact congrArg _ (ih (roster.enroll line).1)

theorem Roster.level_of_mem_collectFrom {roster : Roster} {lines : List Text} {record : LogRecord}
    (h : record ∈ (roster.collectFrom lines).2) : record.level = .debug := by
  induction lines generalizing roster with
  | nil => cases h
  | cons line lines ih =>
    rcases List.mem_append.1 h with h | h
    · unfold enroll at h
      split at h
      · cases h
      · split at h
        · cases h
        · obtain rfl := List.mem_singleton.1 h
          rfl
    · exact ih h

/-! ## A whole source -/

namespace Source

/-- A finding and its events are those of asking for the lines and reading exactly these, up to this
answer. -/
structure ReadsUpTo (front : List Text) (stop : Pull) (t : Traced Roster) : Prop where
  value : t.value = (Roster.collect front).1
  calls : t.trace.calls = [.present, .lines]
  pulled : t.trace.pulled = front.length + stop.items
  log : t.trace.log = (Roster.collect front).2 ++ stop.warnings
  warned : t.trace.log.filter (·.level = .warn) = stop.warnings

/-- What the detailed search makes of a source: nothing where it is missing or cannot be opened, and
otherwise the lenient reading of the lines before the first answer that is none. -/
structure KeepsPrefix (s : Source) (t : Traced Roster) : Prop where
  missing : s.presence = .ok false → t = ⟨.empty, [.called .present, .logged .noSource]⟩
  unlocated : ∀ e, s.presence = .error e →
    t = ⟨.empty, [.called .present, .logged (.locateFailure e), .logged .noSource]⟩
  unopened : s.presence = .ok true → ∀ e, s.lines = .error e →
    t = ⟨.empty, [.called .present, .called .lines, .logged (.unreadableSource e)]⟩
  stops : s.presence = .ok true → ∀ stream, s.lines = .ok stream →
    ∃ front stop, s.BeginsWith front stop ∧ stop.line? = none
  opened : ∀ front stop, s.BeginsWith front stop → stop.line? = none → ReadsUpTo front stop t

theorem readsUpTo_roster {s : Source} (h : s.Halts Mode.detailed.wants) {front : List Text} {stop : Pull}
    (hb : s.BeginsWith front stop) (hstop : stop.line? = none) : ReadsUpTo front stop (s.roster h) := by
  have hsearch : s.roster h = _ :=
    search_of_beginsWith h hb (fun _ _ => rfl) (Pull.stops_detailed_iff.2 hstop)
  have hlog : (s.roster h).trace.log = (Roster.collect front).2 ++ stop.warnings := by
    rw [hsearch]
    simp only [Trace.log_append, Mode.takeUntil, Traced.andThen_trace,
      Mode.log_takePull_of_no_line _ hstop]
    exact congrArg (· ++ stop.warnings) (Mode.log_takeAll_detailed Roster.empty front)
  refine ⟨?_, ?_, ?_, hlog, ?_⟩
  · rw [hsearch]
    exact (Mode.value_takePull_of_no_line _ hstop).trans (Mode.value_takeAll_detailed Roster.empty front)
  · rw [hsearch, Trace.calls_append, Mode.calls_takeUntil]
    rfl
  · rw [hsearch, Trace.pulled_append, Mode.pulled_takeUntil]
    exact Nat.zero_add _
  · have hdebug : (Roster.collect front).2.filter (·.level = .warn) = [] :=
      List.filter_eq_nil_iff.2 fun record hr => by simp [Roster.level_of_mem_collectFrom hr]
    have hwarn : stop.warnings.filter (·.level = .warn) = stop.warnings :=
      List.filter_eq_self.2 fun record hr => by simp [Pull.level_of_mem_warnings hr]
    rw [hlog, List.filter_append, hdebug, hwarn, List.nil_append]

theorem keepsPrefix_roster {s : Source} (h : s.Halts Mode.detailed.wants) : s.KeepsPrefix (s.roster h) where
  missing hp := by
    have ha : s.askPresent = ⟨false, [.called .present]⟩ := by rw [askPresent, hp]
    rw [roster, search_of_absent h (by rw [ha]), ha]
    rfl
  unlocated e hp := by
    have ha : s.askPresent = ⟨false, [.called .present, .logged (.locateFailure e)]⟩ := by
      rw [askPresent, hp]
    rw [roster, search_of_absent h (by rw [ha]), ha]
    rfl
  unopened hp e hl := search_of_unopened h hp hl
  stops hp _ hl := by
    obtain ⟨front, stop, hb, -, hs⟩ := exists_beginsWith h hp hl
    exact ⟨front, stop, hb, Pull.stops_detailed_iff.1 hs⟩
  opened _ _ hb hstop := readsUpTo_roster h hb hstop

/-- The detailed search of a source whose lines end or fail at some time comes to an end. It keeps exactly
the lines before that, and sees nothing else of the source. -/
theorem roster_keepsPrefix {s : Source} (hs : s.Settled) :
    s.KeepsPrefix (s.roster (hs.halts _)) ∧
      (∃ k, Stage.advances s k .locating = (s.search .detailed (hs.halts _)).map .ended) ∧
      ∀ t, Alike .detailed s t → ∃ h, t.roster h = s.roster (hs.halts _) :=
  ⟨keepsPrefix_roster _, Stage.exists_advances_eq_ended _, fun _ ha => search_of_alike ha _⟩

/-- A stream that fails after a malformed line and goes on with entries without an end. -/
theorem roster_keepsPrefix_before_endless_lines :
    let e : IoError := ⟨.isADirectory, "Is a directory".toList⟩
    let stream : LineStream := ⟨fun
      | 0 => .line "0::/a".toList
      | 1 => .line "no entry".toList
      | 2 => .failure e
      | _ => .line "1:cpu:/b".toList⟩
    let s : Source := ⟨.ok true, false, .ok stream⟩
    ∃ hs : s.Settled, ReadsUpTo ["0::/a".toList, "no entry".toList] (.failure e) (s.roster (hs.halts _)) ∧
      ∃ h, Source.roster ⟨.ok true, true, .ok (.ofArray ((stream.firstPulls 3).toArray))⟩ h =
        s.roster (hs.halts _) := by
  intro e stream s
  have hs : s.Settled := by
    rintro _ ⟨⟩
    exact ⟨2, rfl⟩
  obtain ⟨hkeeps, -, halike⟩ := roster_keepsPrefix hs
  refine ⟨hs, hkeeps.opened _ _ ⟨rfl, stream, rfl, rfl, rfl, rfl⟩ rfl, halike _ ⟨rfl, nofun, ?_⟩⟩
  rintro _ ⟨⟩
  refine ⟨_, rfl, fun n hn => ?_⟩
  match n with
  | 0 => rfl
  | 1 => rfl
  | 2 => rfl
  | n + 3 => cases hn 2 (by omega)

end Source

end CgroupMembership
