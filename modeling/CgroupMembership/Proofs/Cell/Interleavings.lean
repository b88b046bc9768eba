import CgroupMembership.Proofs.Search.Announced
import CgroupMembership.Proofs.Cell.Phases
import CgroupMembership.Proofs.Cell.Programs
/-!
# Every interleaving searches once

However the moves of the threads follow one another, at most one thread ever searches its source, and whatever
any thread is given is what that search has found (`run_agreed`). The phases of the cell carry the proof: a
run from the idle cell gets to the busy cell by one move alone, and from there only to the full one. No identity
is seen before the cell is full (`exists_full_or_unseen`), so every demand that has been answered has had to wait
for the announcement (`demand_honoured`).
-/

namespace CgroupMembership

variable {mode : Mode}

/-- These are the events of filling a cell from the source, from the first on and without a gap. -/
def Source.Shows (mode : Mode) (s : Source) (events : Trace) : Prop :=
  (∃ n, events <+: (Stage.advances s n (.locating : Stage mode)).trace) ∨
    ∃ h, events = (s.fill mode h).trace

theorem Source.Shows.announced {s : Source} {events : Trace} (h : s.Shows mode events) :
    events.announced.length ≤ 1 := by
  rcases h with ⟨n, rest, hn⟩ | ⟨hs, rfl⟩
  · have hall := Stage.announced_advances s n (.locating : Stage mode)
    rw [← hn, Trace.announced_append] at hall
    simp [List.append_eq_nil_iff.1 hall]
  · rw [announced_fill]
    exact Nat.le_refl 1

theorem Progress.shows {source : Source} {f : Filling mode} {events : Trace} (h : Progress source f events) :
    source.Shows mode events := by
  cases h with
  | @searching n _ rest _ h => exact .inl ⟨n, rest, by rw [h]⟩
  | storing hs hf => exact .inr ⟨hs, by rw [hf]⟩

namespace Shared

variable {programs : List (List (Call mode))} {s : Shared mode} {i j : Nat} {source : Source}

/-! ## Who searches -/

/-- How far thread `i` is with filling the cell, if it does so. -/
def filling? (s : Shared mode) (i : Nat) : Option (Filling mode) :=
  s.threads[i]?.bind Thread.filling

/-- The threads that begin to fill the cell, each as often as it does so. -/
def searchers (s : Shared mode) : List Nat → List Nat
  | [] => []
  | i :: schedule =>
    (if (s.filling? i).isNone && ((s.step i).filling? i).isSome then [i] else []) ++
      (s.step i).searchers schedule

theorem filling?_eq_none (h : ∀ t ∈ s.threads, t.filling = none) (i : Nat) : s.filling? i = none := by
  rw [filling?, Option.bind_eq_none_iff]
  exact fun t ht => h t (List.mem_of_getElem? ht)

theorem Busy.filling?_isSome (h : Busy i source s) : (s.filling? i).isSome = true := by
  obtain ⟨t, f, -, ht, hf, -⟩ := h.progress
  rw [filling?, ht, Option.bind_some, hf]
  rfl

theorem Busy.filling?_of_ne (h : Busy i source s) (hj : j ≠ i) : s.filling? j = none := by
  rw [filling?, Option.bind_eq_none_iff]
  exact fun t ht => h.others j t ht hj

/-! ## From each phase on -/

theorem Full.run {hs : source.Halts mode.wants} (h : Full i source hs s) (schedule : List Nat) :
    Full i source hs (s.run schedule) ∧ s.searchers schedule = [] := by
  induction schedule generalizing s with
  | nil => exact ⟨h, rfl⟩
  | cons j schedule ih =>
    have hstep := h.move (move_step s j)
    obtain ⟨hrun, hnone⟩ := ih hstep
    refine ⟨hrun, ?_⟩
    rw [searchers, filling?_eq_none hstep.filling, hnone]
    simp

theorem Full.answers_of_run {hs : source.Halts mode.wants} (h : Full i source hs s) (schedule : List Nat) {k : Nat}
    {t : Thread mode} (ht : s.threads[k]? = some t) :
    ∃ u new, (s.run schedule).threads[k]? = some u ∧ u.answers = t.answers ++ new ∧ .read none ∉ new := by
  induction schedule generalizing s t with
  | nil => exact ⟨t, [], ht, (List.append_nil _).symm, List.not_mem_nil⟩
  | cons j schedule ih =>
    obtain ⟨u, new, hu, hanswers, hnew⟩ := h.answers_of_move (move_step s j) ht
    obtain ⟨v, later, hv, hanswers', hlater⟩ := ih (h.move (move_step s j)) hu
    refine ⟨v, new ++ later, hv, ?_, by simp [hnew, hlater]⟩
    rw [hanswers', hanswers, List.append_assoc]

theorem Busy.run (h : Busy i source s) (schedule : List Nat) :
    (Busy i source (s.run schedule) ∨ ∃ hs, Full i source hs (s.run schedule)) ∧
      s.searchers schedule = [] := by
  induction schedule generalizing s with
  | nil => exact ⟨.inl h, rfl⟩
  | cons j schedule ih =>
    rcases h.move (move_step s j) with hstep | ⟨hs, hstep⟩
    · obtain ⟨hrun, hnone⟩ := ih hstep
      refine ⟨hrun, ?_⟩
      rw [searchers, hnone]
      by_cases hj : j = i
      · subst hj
        simp [Option.isSome_iff_ne_none.1 h.filling?_isSome]
      · simp [hstep.filling?_of_ne hj]
    · obtain ⟨hrun, hnone⟩ := hstep.run schedule
      refine ⟨.inr ⟨hs, hrun⟩, ?_⟩
      rw [searchers, filling?_eq_none hstep.filling, hnone]
      simp

/-- A run from the idle cell leaves it idle, or one thread comes to its first demand and searches. -/
theorem Idle.run (h : Idle programs s) (schedule : List Nat) :
    (Idle programs (s.run schedule) ∧ s.searchers schedule = []) ∨
      ∃ i program source, programs[i]? = some program ∧ Call.firstSource? program = some source ∧
        (Busy i source (s.run schedule) ∨ ∃ hs, Full i source hs (s.run schedule)) ∧
        s.searchers schedule = [i] := by
  induction schedule generalizing s with
  | nil => exact .inl ⟨h, rfl⟩
  | cons j schedule ih =>
    rcases h.move (move_step s j) with hstep | ⟨program, source, hp, hfirst, hstep⟩
    · have hnone := filling?_eq_none hstep.filling j
      rcases ih hstep with ⟨hrun, hs⟩ | ⟨i, program, source, hp, hfirst, hrun, hs⟩
      · exact .inl ⟨hrun, by simp [searchers, hnone, hs]⟩
      · exact .inr ⟨i, program, source, hp, hfirst, hrun, by simp [searchers, hnone, hs]⟩
    · obtain ⟨hrun, hs⟩ := hstep.run schedule
      refine .inr ⟨j, program, source, hp, hfirst, hrun, ?_⟩
      simp [searchers, filling?_eq_none h.filling, hstep.filling?_isSome, hs]

/-! ## Agreement -/

/-- All that has happened is that thread `i` has been filling the cell from this source. -/
structure SearchedBy (i : Nat) (source : Source) (s : Shared mode) : Prop where
  history : ∃ events, s.history = events.map (i, ·) ∧ source.Shows mode events
  stored : ∀ found, s.cell.stored = some found → ∃ h, found = (source.identify mode h).value
  seen : ∀ t ∈ s.threads, ∀ found ∈ t.seen, ∃ h, found = (source.identify mode h).value

theorem Busy.searchedBy (h : Busy i source s) : SearchedBy i source s where
  history := by
    obtain ⟨_, _, events, -, -, hh, hp⟩ := h.progress
    exact ⟨events, hh, hp.shows⟩
  stored found hf := by simp [h.stored] at hf
  seen t ht found hf := by simp [h.seen t ht] at hf

theorem Full.searchedBy {hs : source.Halts mode.wants} (h : Full i source hs s) : SearchedBy i source s where
  history := ⟨_, h.history, .inr ⟨hs, rfl⟩⟩
  stored _ hf := ⟨hs, Option.some.inj (hf.symm.trans h.stored)⟩
  seen t ht found hf := ⟨hs, h.seen t ht found hf⟩

theorem trace_of_history {events : Trace} (h : s.history = events.map (i, ·)) : s.trace = events := by
  simp [trace, h, Function.comp_def]

theorem SearchedBy.announced (h : SearchedBy i source s) : s.trace.announced.length ≤ 1 := by
  obtain ⟨events, hh, hs⟩ := h.history
  rw [trace_of_history hh]
  exact hs.announced

/-! ## Answers -/

theorem mem_seen {t : Thread mode} {found : Identity} (h : .identity found ∈ t.answers) : found ∈ t.seen :=
  List.mem_filterMap.2 ⟨_, h, rfl⟩

theorem exists_full_or_unseen (programs : List (List (Call mode))) (schedule : List Nat) :
    (∃ i source hs, Full i source hs ((start Cell.empty programs).run schedule)) ∨
      ((start Cell.empty programs).run schedule).cell.stored = none ∧
        ∀ t ∈ ((start Cell.empty programs).run schedule).threads, t.seen = [] := by
  rcases (idle_start programs).run schedule with ⟨hi, -⟩ | ⟨i, -, source, -, -, hb | ⟨hs, hf⟩, -⟩
  · exact .inr ⟨hi.stored, hi.seen⟩
  · exact .inr ⟨hb.stored, hb.seen⟩
  · exact .inl ⟨i, source, hs, hf⟩

/-- A thread with calls to make is answered or begins to fill the cell, unless another thread fills it. -/
theorem goes_on_or_waits (programs : List (List (Call mode))) (schedule : List Nat) {t : Thread mode}
    (ht : ((start Cell.empty programs).run schedule).threads[i]? = some t) (hf : t.filling = none)
    (hc : t.calls ≠ []) :
    (∃ a, (((start Cell.empty programs).run schedule).step i).threads[i]? = some (t.answered a)) ∨
      (∃ f, (((start Cell.empty programs).run schedule).step i).threads[i]? = some (t.working f)) ∨
      ∃ j, j ≠ i ∧ (((start Cell.empty programs).run schedule).filling? j).isSome = true := by
  rcases (move_step _ i).goes_on ht hf hc with hanswered | hworking | howner
  · exact .inl hanswered
  · exact .inr (.inl hworking)
  rcases (idle_start programs).run schedule with ⟨hi, -⟩ | ⟨j, -, source, -, -, hb | ⟨hs, hfull⟩, -⟩
  · simp [hi.owner] at howner
  · refine .inr (.inr ⟨j, ?_, hb.filling?_isSome⟩)
    rintro rfl
    have hfilling := hb.filling?_isSome
    simp [filling?, ht, hf] at hfilling
  · simp [hfull.owner] at howner

/-- The answer is the identity that is stored, which has been announced once. -/
def Honoured (s : Shared mode) (a : Answer) : Prop :=
  ∃ found record, a = .identity found ∧ s.cell.stored = some found ∧ s.trace.announced = [record] ∧
    record.level = .debug ∧ record.message =
      "Resolved ".toList ++ mode.name ++ " cgroup identity: ".toList ++ found.describe

/-- A schedule leaves the threads in agreement. -/
structure Agreed (programs : List (List (Call mode))) (schedule : List Nat) (s : Shared mode) : Prop where
  /-- At most one thread has searched, once. -/
  searchers : ((start Cell.empty programs).searchers schedule).length ≤ 1
  unsearched : (start Cell.empty programs).searchers schedule = [] →
    s.history = [] ∧ s.cell.stored = none ∧ ∀ t ∈ s.threads, t.seen = []
  /-- It has searched the source of its first demand, and no other source has been asked anything. -/
  searched : ∀ i ∈ (start Cell.empty programs).searchers schedule, ∃ program source,
    programs[i]? = some program ∧ Call.firstSource? program = some source ∧ SearchedBy i source s
  /-- What has been stored has not changed. -/
  kept : ∀ earlier later, schedule = earlier ++ later →
    ∀ found, ((start Cell.empty programs).run earlier).cell.stored = some found → s.cell.stored = some found
  announced : s.trace.announced.length ≤ 1
  /-- Each thread has been answered the first calls of its program, each in its kind, and has the others still to
  make. -/
  answered : List.Forall₂ (fun program t => ∃ done, program = done ++ t.calls ∧
    List.Forall₂ Call.Admits done t.answers) programs s.threads
  /-- A demand that has been answered has the identity that is stored, after its announcement. -/
  returned : ∀ (i : Nat) t done, s.threads[i]? = some t → programs[i]? = some (done ++ t.calls) →
    ∀ (n : Nat) source, done[n]? = some (.demand source) → ∃ a, t.answers[n]? = some a ∧ Honoured s a
  /-- Once something is stored, a read gives it. -/
  recalled : ∀ earlier later, schedule = earlier ++ later →
    ((start Cell.empty programs).run earlier).cell.stored.isSome = true →
    ∀ (i : Nat) t, ((start Cell.empty programs).run earlier).threads[i]? = some t →
      ∃ u new, s.threads[i]? = some u ∧ u.answers = t.answers ++ new ∧ .read none ∉ new
  /-- A thread with calls to make goes on with the first of them when it moves, or it waits for the one that fills
  the cell. -/
  unblocked : ∀ (i : Nat) t, s.threads[i]? = some t → t.filling = none → t.calls ≠ [] →
    (∃ a, (s.step i).threads[i]? = some (t.answered a)) ∨ (∃ f, (s.step i).threads[i]? = some (t.working f)) ∨
      ∃ j, j ≠ i ∧ (s.filling? j).isSome = true

theorem announced_run_le (programs : List (List (Call mode))) (schedule : List Nat) :
    ((start Cell.empty programs).run schedule).trace.announced.length ≤ 1 := by
  rcases (idle_start programs).run schedule with ⟨hi, -⟩ | ⟨i, -, source, -, -, hb | ⟨hs, hf⟩, -⟩
  · simp [trace, hi.history, Trace.announced, Trace.log]
  · exact hb.searchedBy.announced
  · exact hf.searchedBy.announced

theorem stored_kept {schedule earlier later : List Nat} (hs : schedule = earlier ++ later) {found : Identity}
    (h : ((start Cell.empty programs).run earlier).cell.stored = some found) :
    ((start Cell.empty programs).run schedule).cell.stored = some found := by
  rw [hs, run_append]
  rcases exists_full_or_unseen programs earlier with ⟨i, source, hs, hf⟩ | ⟨hnone, -⟩
  · rw [(hf.run later).1.stored, ← hf.stored, h]
  · simp [hnone] at h

theorem read_recalled {schedule earlier later : List Nat} (hs : schedule = earlier ++ later)
    (h : ((start Cell.empty programs).run earlier).cell.stored.isSome = true) {t : Thread mode}
    (ht : ((start Cell.empty programs).run earlier).threads[i]? = some t) :
    ∃ u new, ((start Cell.empty programs).run schedule).threads[i]? = some u ∧
      u.answers = t.answers ++ new ∧ .read none ∉ new := by
  rw [hs, run_append]
  rcases exists_full_or_unseen programs earlier with ⟨_, source, hs, hf⟩ | ⟨hnone, -⟩
  · exact hf.answers_of_run later ht
  · simp [hnone] at h

theorem Full.honoured {hs : source.Halts mode.wants} (h : Full i source hs s) {t : Thread mode}
    (ht : t ∈ s.threads) {found : Identity} (ha : .identity found ∈ t.answers) : Honoured s (.identity found) := by
  rw [h.seen t ht found (mem_seen ha)]
  have hannounced := Source.announced_fill hs
  rw [← trace_of_history h.history] at hannounced
  exact ⟨_, _, rfl, h.stored, hannounced, rfl, rfl⟩

theorem demand_honoured {schedule : List Nat} {t : Thread mode} {done : List (Call mode)}
    (ht : ((start Cell.empty programs).run schedule).threads[i]? = some t)
    (hp : programs[i]? = some (done ++ t.calls)) {n : Nat} (hn : done[n]? = some (.demand source)) :
    ∃ a, t.answers[n]? = some a ∧ Honoured ((start Cell.empty programs).run schedule) a := by
  obtain ⟨u, hu, hfollows⟩ :=
    exists_of_forall₂_getElem? (follows_run (follows_start Cell.empty programs) schedule) hp
  obtain rfl := Option.some.inj (ht.symm.trans hu)
  obtain ⟨done', hdone, hanswers⟩ := hfollows.made
  obtain rfl := List.append_cancel_right hdone
  obtain ⟨a, ha, hadmits⟩ := exists_of_forall₂_getElem? hanswers hn
  have hm := List.mem_of_getElem? ha
  cases hadmits with
  | demand _ found =>
    refine ⟨_, ha, ?_⟩
    rcases exists_full_or_unseen programs schedule with ⟨_, _, _, hf⟩ | ⟨-, hunseen⟩
    · exact hf.honoured (List.mem_of_getElem? ht) hm
    · have hfound := mem_seen hm
      rw [hunseen t (List.mem_of_getElem? ht)] at hfound
      cases hfound

/-- However the moves of any threads around an empty cell are interleaved, they agree on what the only search
has found. -/
theorem run_agreed (programs : List (List (Call mode))) (schedule : List Nat) :
    Agreed programs schedule ((start Cell.empty programs).run schedule) where
  searchers := by
    rcases (idle_start programs).run schedule with ⟨-, hs⟩ | ⟨i, -, -, -, -, -, hs⟩
    · simp [hs]
    · simp [hs]
  unsearched h := by
    rcases (idle_start programs).run schedule with ⟨hi, -⟩ | ⟨i, -, -, -, -, -, hs⟩
    · exact ⟨hi.history, hi.stored, hi.seen⟩
    · simp [hs] at h
  searched i hi := by
    rcases (idle_start programs).run schedule with ⟨-, hs⟩ | ⟨j, program, source, hp, hfirst, hphase, hs⟩
    · simp [hs] at hi
    · obtain rfl := List.mem_singleton.1 (hs ▸ hi)
      refine ⟨program, source, hp, hfirst, ?_⟩
      rcases hphase with hb | ⟨_, hf⟩
      · exact hb.searchedBy
      · exact hf.searchedBy
  kept _ _ hs _ := stored_kept hs
  announced := announced_run_le programs schedule
  answered := (follows_run (follows_start Cell.empty programs) schedule).imp fun _ _ h => h.made
  returned _ _ _ ht hp _ _ := demand_honoured ht hp
  recalled _ _ hs h _ _ := read_recalled hs h
  unblocked _ _ := goes_on_or_waits programs schedule

end Shared

end CgroupMembership
