import CgroupMembership.Proofs.Cell.Interleavings
/-!
# Threads that move in turn are all answered

A thread that fills the cell needs no more moves than its source has requests and events (`Filling.EndsIn`).
While it has some left, a round of all threads takes away one of them, and once the cell is full a round
answers whoever waits. So threads that demand together all have their answer after the rounds that
`demandTogether` gives them (`demandTogether_answered`).
-/

namespace CgroupMembership

variable {mode : Mode}

/-! ## How many moves it takes -/

/-- The thread needs no more than `k` further moves to fill the cell. -/
def Filling.EndsIn : Filling mode → Nat → Prop
  | .searching source stage rest, k =>
    ∃ n found trace, Stage.advances source n stage = ⟨.ended found, trace⟩ ∧
      rest.length + n + trace.length + 2 ≤ k
  | .storing _, k => 1 ≤ k

namespace Filling

variable {source : Source} {stage : Stage mode} {k : Nat}

theorem EndsIn.emit {e : Event} {rest : Trace}
    (h : (Filling.searching source stage (e :: rest)).EndsIn (k + 1)) :
    (Filling.searching source stage rest).EndsIn k := by
  obtain ⟨n, found, trace, hn, hk⟩ := h
  refine ⟨n, found, trace, hn, ?_⟩
  rw [List.length_cons] at hk
  omega

theorem EndsIn.request (h : (Filling.searching source stage []).EndsIn (k + 1))
    (hs : ∀ found, stage ≠ .ended found) :
    (Filling.searching source (stage.advance source).value (stage.advance source).trace).EndsIn k := by
  obtain ⟨n, found, trace, hn, hk⟩ := h
  cases n with
  | zero => exact absurd (congrArg Traced.value hn) (hs found)
  | succ n =>
    rw [Stage.advances, Traced.ext_iff] at hn
    simp only [Traced.andThen_value, Traced.andThen_trace] at hn
    refine ⟨n, found, (Stage.advances source n (stage.advance source).value).trace, Traced.ext hn.1 rfl, ?_⟩
    rw [← hn.2, List.length_append, List.length_nil] at hk
    omega

theorem EndsIn.announce {found : mode.Finding}
    (h : (Filling.searching source (.ended found) []).EndsIn (k + 1)) (result : Identity) :
    (.storing result : Filling mode).EndsIn k := by
  obtain ⟨n, _, trace, -, hk⟩ := h
  exact Nat.le_of_succ_le_succ (Nat.le_trans (by omega) hk)

theorem EndsIn.pos {f : Filling mode} (h : f.EndsIn k) : 0 < k := by
  cases f with
  | searching source stage rest =>
    obtain ⟨n, found, trace, -, hk⟩ := h
    omega
  | storing result => exact h

theorem EndsIn.mono {f : Filling mode} {m : Nat} (h : f.EndsIn k) (hk : k ≤ m) : f.EndsIn m := by
  cases f with
  | searching source stage rest =>
    obtain ⟨n, found, trace, hn, hle⟩ := h
    exact ⟨n, found, trace, hn, Nat.le_trans hle hk⟩
  | storing result => exact Nat.le_trans h hk

/-- From the first request on, each request and each event takes one move, and two more end the search. -/
theorem endsIn_locating (h : source.Halts mode.wants) :
    (Filling.searching source (.locating : Stage mode) []).EndsIn (2 * (source.fill mode h).trace.length + 1) := by
  obtain ⟨n, hle, hn⟩ := Stage.exists_advances_le h
  refine ⟨n, _, _, hn, ?_⟩
  simp only [Source.fill, Source.identify, Traced.andThen_trace, Traced.map_trace, List.length_append,
    List.length_cons, List.length_nil]
  omega

end Filling

namespace Shared

variable {s s' : Shared mode} {i j k : Nat} {source : Source} {f : Filling mode}

/-! ## One move -/

theorem Move.filling?_of_ne (hm : Move s j s') (hij : j ≠ i) : s'.filling? i = s.filling? i := by
  cases hm with
  | stay _ => rfl
  | answer _ _ _ _ | begin _ _ _ _ _ | emit _ _ | request _ _ _ | announce _ _ | store _ _ =>
    exact congrArg (Option.bind · Thread.filling) (List.getElem?_set_ne hij)

theorem filling?_setThread {t u : Thread mode} (ht : s.threads[i]? = some t) :
    (s.setThread i u).filling? i = u.filling := by
  rw [filling?, getElem?_setThread_self ht]
  rfl

/-- Thread `i` fills the cell and needs no more than `k` further moves, or it has done so. -/
def Nearing (i : Nat) (source : Source) (k : Nat) (s : Shared mode) : Prop :=
  (∃ hs, Full i source hs s) ∨ Busy i source s ∧ ∃ f, s.filling? i = some f ∧ f.EndsIn k

theorem Nearing.move_self (h : Nearing i source (k + 1) s) (hm : Move s i s') : Nearing i source k s' := by
  obtain ⟨hs, hfull⟩ | ⟨hb, f, hf, hk⟩ := h
  · exact .inl ⟨hs, hfull.move hm⟩
  obtain hb' | hfull := hb.move hm
  · refine .inr ⟨hb', ?_⟩
    obtain ⟨t, ht, hf⟩ := Option.bind_eq_some_iff.1 hf
    cases hm with
    | stay idle => simp [(idle t ht).1] at hf
    | answer ht' hf' _ _ | begin ht' hf' _ _ _ =>
      obtain rfl := Option.some.inj (ht.symm.trans ht')
      simp [hf'] at hf
    | emit ht' hf' =>
      obtain rfl := Option.some.inj (ht.symm.trans ht')
      obtain rfl := Option.some.inj (hf.symm.trans hf')
      exact ⟨_, filling?_setThread ht, hk.emit⟩
    | request ht' hf' hs =>
      obtain rfl := Option.some.inj (ht.symm.trans ht')
      obtain rfl := Option.some.inj (hf.symm.trans hf')
      exact ⟨_, filling?_setThread ht, hk.request hs⟩
    | announce ht' hf' =>
      obtain rfl := Option.some.inj (ht.symm.trans ht')
      obtain rfl := Option.some.inj (hf.symm.trans hf')
      exact ⟨_, filling?_setThread ht, hk.announce _⟩
    | store _ _ => exact absurd hb'.owner nofun
  · exact .inl hfull

theorem Nearing.move_of_ne (h : Nearing i source k s) (hm : Move s j s') (hj : j ≠ i) :
    Nearing i source k s' := by
  obtain ⟨hs, hfull⟩ | ⟨hb, f, hf, hk⟩ := h
  · exact .inl ⟨hs, hfull.move hm⟩
  obtain hb' | hfull := hb.move hm
  · exact .inr ⟨hb', f, (hm.filling?_of_ne hj).trans hf, hk⟩
  · exact .inl hfull

theorem Nearing.mono {m : Nat} (h : Nearing i source k s) (hk : k ≤ m) : Nearing i source m s := by
  obtain hfull | ⟨hb, f, hf, hle⟩ := h
  · exact .inl hfull
  · exact .inr ⟨hb, f, hf, hle.mono hk⟩

/-! ## Rounds -/

theorem Nearing.run (h : Nearing i source k s) (schedule : List Nat) : Nearing i source k (s.run schedule) := by
  induction schedule generalizing s with
  | nil => exact h
  | cons j schedule ih =>
    by_cases hj : j = i
    · subst hj
      exact ih ((h.mono (Nat.le_succ k)).move_self (move_step s j))
    · exact ih (h.move_of_ne (move_step s j) hj)

theorem Nearing.round (h : Nearing i source (k + 1) s) {schedule : List Nat} (hi : i ∈ schedule) :
    Nearing i source k (s.run schedule) := by
  induction schedule generalizing s with
  | nil => cases hi
  | cons j schedule ih =>
    by_cases hj : j = i
    · subst hj
      exact (h.move_self (move_step s j)).run schedule
    · exact ih (h.move_of_ne (move_step s j) hj) ((List.mem_cons.1 hi).resolve_left (Ne.symm hj))

theorem Nearing.rounds (h : Nearing i source k s) (round : List Nat) (hi : i ∈ round) :
    ∃ hs, Full i source hs (s.run (List.replicate k round).flatten) := by
  induction k generalizing s with
  | zero =>
    obtain hfull | ⟨-, f, -, hk⟩ := h
    · exact hfull
    · exact absurd hk.pos (Nat.lt_irrefl 0)
  | succ k ih =>
    rw [List.replicate_succ, List.flatten_cons, run_append]
    exact ih (h.round hi)

/-! ## One demand each -/

/-- The thread has a single demand to make, or has its answer. -/
def SingleDemand (t : Thread mode) : Prop :=
  (∃ source, t.calls = [.demand source]) ∧ t.answers = [] ∨
    t.calls = [] ∧ t.filling = none ∧ ∃ found, t.answers = [.identity found]

theorem SingleDemand.unanswered {t : Thread mode} (h : SingleDemand t) (hc : t.calls ≠ []) :
    ∃ source, t.calls = [.demand source] := by
  obtain ⟨hs, -⟩ | ⟨hnil, -⟩ := h
  · exact hs
  · exact absurd hnil hc

theorem singleDemand_of_follows {t : Thread mode} (h : t.Follows [.demand source]) : SingleDemand t := by
  obtain ⟨⟨done, hp, hanswers⟩, hdemanding⟩ := h
  obtain ⟨calls, filling, answers⟩ := t
  -- Either nothing has been answered yet, or the only call has.
  cases hanswers with
  | nil => exact .inl ⟨⟨source, hp.symm⟩, rfl⟩
  | cons ha hrest =>
    obtain ⟨rfl, hnil⟩ := List.cons.inj hp
    obtain ⟨rfl, rfl⟩ := List.append_eq_nil_iff.1 hnil.symm
    cases hrest
    cases ha with
    | demand _ found =>
      refine .inr ⟨rfl, ?_, found, rfl⟩
      cases filling with
      | none => rfl
      | some f =>
        obtain ⟨_, _, hcalls⟩ := hdemanding rfl
        cases hcalls

theorem singleDemand_of_mem {n : Nat}
    (h : List.Forall₂ Thread.Follows (List.replicate n [.demand source]) s.threads) :
    ∀ t ∈ s.threads, SingleDemand t := by
  intro t ht
  obtain ⟨j, hj, rfl⟩ := List.getElem_of_mem ht
  have hj' : j < (List.replicate n [Call.demand source]).length := h.length_eq ▸ hj
  have hfollows := h.get hj' hj
  rw [List.get_eq_getElem, List.getElem_replicate] at hfollows
  exact singleDemand_of_follows hfollows

/-- Thread `i` has made all its calls. -/
def Finished (i : Nat) (s : Shared mode) : Prop :=
  ∀ t, s.threads[i]? = some t → t.calls = []

theorem Finished.move (h : Finished i s) (hm : Move s j s') : Finished i s' := by
  cases hm with
  | stay _ => exact h
  | answer ht _ _ _ | begin ht _ _ _ _ | emit ht _ | request ht _ _ | announce ht _ | store ht _ =>
    intro u hu
    rcases getElem?_setThread hu with ⟨rfl, rfl⟩ | ⟨-, hu⟩
    · simp [Thread.answered, Thread.working, h _ ht]
    · exact h u hu

theorem Finished.run (h : Finished i s) (schedule : List Nat) : Finished i (s.run schedule) := by
  induction schedule generalizing s with
  | nil => exact h
  | cons j schedule ih => exact ih (h.move (move_step s j))

theorem Full.finished_of_move {hs : source.Halts mode.wants} (h : Full i source hs s) {n : Nat}
    (hd : List.Forall₂ Thread.Follows (List.replicate n [.demand source]) s.threads) (hm : Move s j s') :
    Finished j s' := by
  cases hm with
  | stay idle => exact fun t ht => (idle t ht).2.resolve_right (by simp [h.stored])
  | answer ht _ hc _ =>
    obtain ⟨source, hs⟩ := (singleDemand_of_mem hd _ (List.mem_of_getElem? ht)).unanswered (by simp [hc])
    intro u hu
    obtain ⟨-, rfl⟩ | ⟨hne, -⟩ := getElem?_setThread hu
    · simp [Thread.answered, hs]
    · exact absurd rfl hne
  | begin _ _ _ empty _ => simp [h.stored] at empty
  | emit ht hf | request ht hf _ | announce ht hf | store ht hf =>
    simp [h.filling _ (List.mem_of_getElem? ht)] at hf

theorem Full.finished {hs : source.Halts mode.wants} (h : Full i source hs s) {n : Nat}
    (hd : List.Forall₂ Thread.Follows (List.replicate n [.demand source]) s.threads) {schedule : List Nat}
    (hj : j ∈ schedule) : Finished j (s.run schedule) := by
  induction schedule generalizing s with
  | nil => cases hj
  | cons l schedule ih =>
    obtain rfl | hj := List.mem_cons.1 hj
    · exact (h.finished_of_move hd (move_step s _)).run schedule
    · exact ih (h.move (move_step s l)) (follows_of_move hd (move_step s l)) hj

theorem Full.answers {hs : source.Halts mode.wants} (h : Full i source hs s) {t : Thread mode}
    (ht : t ∈ s.threads) (hd : SingleDemand t) (hc : t.calls = []) :
    t.answers = [.identity (source.identify mode hs).value] := by
  obtain ⟨⟨_, hc'⟩, -⟩ | ⟨-, -, found, ha⟩ := hd
  · simp [hc] at hc'
  · rw [ha, h.seen t ht found (mem_seen (by simp [ha]))]

/-! ## All rounds -/

theorem Move.length_threads (hm : Move s j s') : s'.threads.length = s.threads.length := by
  cases hm with
  | stay _ => rfl
  | answer _ _ _ _ | begin _ _ _ _ _ | emit _ _ | request _ _ _ | announce _ _ | store _ _ =>
    exact List.length_set

theorem length_threads_run (s : Shared mode) (schedule : List Nat) :
    (s.run schedule).threads.length = s.threads.length := by
  induction schedule generalizing s with
  | nil => rfl
  | cons j schedule ih => exact (ih (s.step j)).trans (move_step s j).length_threads

theorem nearing_step_start (n : Nat) (h : source.Halts mode.wants) :
    Nearing 0 source (2 * (source.fill mode h).trace.length + 1)
      ((start (Cell.empty : Cell mode) (List.replicate (n + 1) [.demand source])).step 0) := by
  have ht : (start (Cell.empty : Cell mode) (List.replicate (n + 1) [.demand source])).threads[0]? =
    some (.ofCalls [.demand source]) := rfl
  exact .inr ⟨(idle_start _).begin ht, _, filling?_setThread ht, Filling.endsIn_locating h⟩

theorem nearing_first_round (n : Nat) (h : source.Halts mode.wants) :
    Nearing 0 source (2 * (source.fill mode h).trace.length + 1)
      ((start (Cell.empty : Cell mode) (List.replicate (n + 1) [.demand source])).run (List.range (n + 1))) := by
  rw [List.range_succ_eq_map]
  exact (nearing_step_start n h).run ((List.range n).map Nat.succ)

theorem roundRobin_add_two (s : Shared mode) (rounds : Nat) :
    s.roundRobin (rounds + 2) = List.range s.threads.length ++
      ((List.replicate rounds (List.range s.threads.length)).flatten ++ List.range s.threads.length) := by
  rw [roundRobin, List.replicate_succ, List.flatten_cons, List.replicate_succ', List.flatten_append,
    List.flatten_singleton]

/-- Threads that demand together from an empty cell are all answered with what their source holds, which is
searched once. -/
theorem demandTogether_answered (n : Nat) (source : Source) (h : source.Halts mode.wants) :
    let s := demandTogether (Cell.empty : Cell mode) (n + 1) source h
    s.threads.length = n + 1 ∧
      (∀ t ∈ s.threads, t.calls = [] ∧ t.answers = [.identity (source.identify mode h).value]) ∧
      s.cell.stored = some (source.identify mode h).value ∧ s.trace = (source.fill mode h).trace := by
  intro s
  let first := start (Cell.empty : Cell mode) (List.replicate (n + 1) [.demand source])
  let round := List.range (n + 1)
  let k := 2 * (source.fill mode h).trace.length + 1
  have hlength : first.threads.length = n + 1 := by simp [first, start]
  -- The first round begins the search, `k` rounds end it, and the last round answers the others.
  have hrun : s = ((first.run round).run (List.replicate k round).flatten).run round := by
    have hrounds := roundRobin_add_two first k
    rw [hlength] at hrounds
    rw [← run_append, ← run_append]
    exact congrArg first.run hrounds
  obtain ⟨hs, hfull⟩ := (nearing_first_round n h).rounds round (by simp [round])
  have hfollows : List.Forall₂ Thread.Follows (List.replicate (n + 1) [.demand source])
      ((first.run round).run (List.replicate k round).flatten).threads :=
    follows_run (follows_run (follows_start _ _) round) _
  have hlast : Full 0 source hs s := hrun ▸ (hfull.run round).1
  have hlengths : s.threads.length = n + 1 := by
    rw [hrun, length_threads_run, length_threads_run, length_threads_run, hlength]
  refine ⟨hlengths, fun t ht => ?_, hlast.stored, trace_of_history hlast.history⟩
  obtain ⟨j, hj⟩ := List.getElem?_of_mem ht
  have hround : j ∈ round := List.mem_range.2 (hlengths ▸ (List.getElem?_eq_some_iff.1 hj).1)
  have hc : t.calls = [] := hfull.finished hfollows hround t (hrun ▸ hj)
  exact ⟨hc, hlast.answers ht (singleDemand_of_mem (follows_run hfollows round) t (hrun ▸ ht)) hc⟩

end Shared

end CgroupMembership
