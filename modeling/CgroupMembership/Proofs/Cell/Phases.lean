import CgroupMembership.Proofs.Search.Stages
import CgroupMembership.Proofs.Cell.Moves
/-!
# The phases of a shared cell

A cell that threads share is first idle, then one thread is busy filling it, and then it is full. Each phase
fixes the events so far and what the threads have been given, and a move keeps the phase or leads to the next
one: `Idle.move`, `Busy.move` and `Full.move`. Once the cell is full, no read is answered with nothing
(`Full.answers_of_move`).
-/

namespace CgroupMembership

variable {mode : Mode}

/-- How far a thread is with filling the cell from this source, and what has been seen of it. -/
inductive Progress (source : Source) : Filling mode → Trace → Prop
  | searching {n : Nat} {stage : Stage mode} {rest events : Trace}
    (h : Stage.advances source n .locating = ⟨stage, events ++ rest⟩) :
    Progress source (.searching source stage rest) events
  | storing {result : Identity} {events : Trace} (h : source.Halts mode.wants)
    (hf : source.fill mode h = ⟨result, events⟩) : Progress source (.storing result) events

namespace Progress

variable {source source' : Source} {stage : Stage mode} {events : Trace}

theorem emit {e : Event} {rest : Trace} (h : Progress source (.searching source' stage (e :: rest)) events) :
    Progress source (.searching source' stage rest) (events ++ [e]) := by
  cases h with
  | searching h => exact .searching (h.trans (by rw [← List.append_cons]))

theorem request (h : Progress source (.searching source' stage []) events) :
    Progress source (.searching source' (stage.advance source').value (stage.advance source').trace)
      events := by
  cases h with
  | @searching n _ _ _ h =>
    refine .searching (n := n + 1) ?_
    rw [Stage.advances_add, h]
    simp [Stage.advances, Traced.andThen]

theorem announce {found : mode.Finding} (h : Progress source (.searching source' (.ended found) []) events) :
    Progress source (.storing (mode.identity found) : Filling mode)
      (events ++ [.logged (.resolved mode (mode.identity found))]) := by
  cases h with
  | searching h =>
    obtain ⟨hs, hsearch⟩ := Stage.search_of_advances (h.trans (by rw [List.append_nil]))
    refine .storing hs ?_
    rw [Source.fill, Source.identify, hsearch]
    rfl

end Progress

namespace Shared

variable {programs : List (List (Call mode))} {s s' : Shared mode} {i j : Nat} {source : Source}
  {t u : Thread mode} {f : Filling mode} {events : Trace}

/-- No thread has come to a demand. -/
structure Idle (programs : List (List (Call mode))) (s : Shared mode) : Prop where
  stored : s.cell.stored = none
  owner : s.owner = none
  history : s.history = []
  filling : ∀ t ∈ s.threads, t.filling = none
  seen : ∀ t ∈ s.threads, t.seen = []
  calls : ∀ (i : Nat) (t : Thread mode), s.threads[i]? = some t →
    ∃ program, programs[i]? = some program ∧ Call.firstSource? t.calls = Call.firstSource? program

/-- Thread `i` fills the cell from this source. -/
structure Busy (i : Nat) (source : Source) (s : Shared mode) : Prop where
  stored : s.cell.stored = none
  owner : s.owner = some i
  seen : ∀ t ∈ s.threads, t.seen = []
  others : ∀ (j : Nat) (t : Thread mode), s.threads[j]? = some t → j ≠ i → t.filling = none
  progress : ∃ t f events, s.threads[i]? = some t ∧ t.filling = some f ∧
    s.history = events.map (i, ·) ∧ Progress source f events

/-- Thread `i` has filled the cell from this source. -/
structure Full (i : Nat) (source : Source) (h : source.Halts mode.wants) (s : Shared mode) : Prop where
  stored : s.cell.stored = some (source.identify mode h).value
  owner : s.owner = none
  history : s.history = (source.fill mode h).trace.map (i, ·)
  filling : ∀ t ∈ s.threads, t.filling = none
  seen : ∀ t ∈ s.threads, ∀ found ∈ t.seen, found = (source.identify mode h).value

/-! ## Idle -/

theorem idle_start (programs : List (List (Call mode))) : Idle programs (start Cell.empty programs) where
  stored := rfl
  owner := rfl
  history := rfl
  filling t ht := by
    obtain ⟨program, -, rfl⟩ := List.mem_map.1 ht
    rfl
  seen t ht := by
    obtain ⟨program, -, rfl⟩ := List.mem_map.1 ht
    rfl
  calls i t ht := by
    rw [start, List.getElem?_map] at ht
    obtain ⟨program, hp, rfl⟩ := Option.map_eq_some_iff.1 ht
    exact ⟨program, hp, rfl⟩

theorem Idle.answer (h : Idle programs s) {call : Call mode} {calls : List (Call mode)} {a : Answer}
    (ht : s.threads[i]? = some t) (hc : t.calls = call :: calls) (hcall : call.source? = none)
    (ha : a.identity? = none) : Idle programs (s.setThread i (t.answered a)) where
  stored := h.stored
  owner := h.owner
  history := h.history
  filling := forall_mem_setThread h.filling rfl
  seen := forall_mem_setThread h.seen (by simp [h.seen t (List.mem_of_getElem? ht), ha])
  calls j u hu := by
    rcases getElem?_setThread hu with ⟨rfl, rfl⟩ | ⟨-, hu⟩
    · obtain ⟨program, hp, hfirst⟩ := h.calls j t ht
      refine ⟨program, hp, ?_⟩
      rw [← hfirst]
      simp [Thread.answered, hc, Call.firstSource?, hcall]
    · exact h.calls j u hu

theorem Idle.begin (h : Idle programs s) (ht : s.threads[i]? = some t) :
    Busy i source { s.setThread i (t.working (.searching source .locating [])) with owner := some i } where
  stored := h.stored
  owner := rfl
  seen := forall_mem_setThread h.seen (h.seen t (List.mem_of_getElem? ht))
  others j u hu hj := by
    obtain ⟨rfl, -⟩ | ⟨-, hu⟩ := getElem?_setThread hu
    · exact absurd rfl hj
    · exact h.filling u (List.mem_of_getElem? hu)
  progress := ⟨_, _, [], getElem?_setThread_self ht, rfl, h.history, .searching (n := 0) rfl⟩

theorem Idle.move (h : Idle programs s) (hm : Move s i s') :
    Idle programs s' ∨ ∃ program source, programs[i]? = some program ∧
      Call.firstSource? program = some source ∧ Busy i source s' := by
  cases hm with
  | stay _ => exact .inl h
  | answer ht _ hc ha =>
    have hnone := ha.identity?_eq
    rw [h.stored, or_self] at hnone
    exact .inl (h.answer ht hc (ha.source?_eq_none h.stored) hnone)
  | begin ht _ hc _ _ =>
    obtain ⟨program, hp, hfirst⟩ := h.calls _ _ ht
    rw [hc] at hfirst
    exact .inr ⟨program, _, hp, hfirst.symm, h.begin ht⟩
  | emit ht hf | request ht hf _ | announce ht hf | store ht hf =>
    simp [h.filling _ (List.mem_of_getElem? ht)] at hf

/-! ## Busy -/

theorem Busy.worker (h : Busy i source s) (ht : s.threads[j]? = some t) (hf : t.filling = some f) :
    j = i ∧ ∃ events, s.history = events.map (i, ·) ∧ Progress source f events := by
  by_cases hj : j = i
  · subst hj
    obtain ⟨t', f', events, ht', hf', hh, hp⟩ := h.progress
    obtain rfl := Option.some.inj (ht.symm.trans ht')
    obtain rfl := Option.some.inj (hf.symm.trans hf')
    exact ⟨rfl, events, hh, hp⟩
  · rw [h.others j t ht hj] at hf
    cases hf

theorem Busy.answer (h : Busy i source s) {a : Answer} (ht : s.threads[j]? = some t) (hf : t.filling = none)
    (ha : a.identity? = none) : Busy i source (s.setThread j (t.answered a)) where
  stored := h.stored
  owner := h.owner
  seen := forall_mem_setThread h.seen (by simp [h.seen t (List.mem_of_getElem? ht), ha])
  others k u hu hk := by
    rcases getElem?_setThread hu with ⟨-, rfl⟩ | ⟨-, hu⟩
    · rfl
    · exact h.others k u hu hk
  progress := by
    obtain ⟨t', f, events, ht', hf', hrest⟩ := h.progress
    have hij : j ≠ i := by
      rintro rfl
      rw [ht, Option.some.injEq] at ht'
      rw [ht', hf'] at hf
      cases hf
    exact ⟨t', f, events, (List.getElem?_set_ne hij).trans ht', hf', hrest⟩

/-- The worker may go on as long as what is seen of it fits its progress. -/
theorem Busy.work (h : Busy i source s) (ht : s.threads[i]? = some t) (hp : Progress source f events)
    {history : List (Nat × Event)} (hh : history = events.map (i, ·)) :
    Busy i source { s.setThread i (t.working f) with history := history } where
  stored := h.stored
  owner := h.owner
  seen := forall_mem_setThread h.seen (h.seen t (List.mem_of_getElem? ht))
  others j u hu hj := by
    obtain ⟨rfl, -⟩ | ⟨-, hu⟩ := getElem?_setThread hu
    · exact absurd rfl hj
    · exact h.others j u hu hj
  progress := ⟨_, f, events, getElem?_setThread_self ht, rfl, hh, hp⟩

theorem Busy.store (h : Busy i source s) {result : Identity} (ht : s.threads[i]? = some t)
    (hh : s.history = events.map (i, ·)) (hp : Progress source (.storing result : Filling mode) events) :
    ∃ hs, Full i source hs
      { s.setThread i (t.answered (.identity result)) with cell := ⟨some result⟩, owner := none } := by
  obtain ⟨hs, hfill⟩ : ∃ hs, source.fill mode hs = ⟨result, events⟩ := by
    cases hp with
    | storing hs hfill => exact ⟨hs, hfill⟩
  have hvalue : (source.identify mode hs).value = result := congrArg Traced.value hfill
  refine ⟨hs, congrArg some hvalue.symm, rfl, ?_, ?_, ?_⟩
  · rw [hfill]
    exact hh
  · intro u hu
    obtain ⟨j, hj⟩ := List.getElem?_of_mem hu
    rcases getElem?_setThread hj with ⟨-, rfl⟩ | ⟨hne, hj⟩
    · rfl
    · exact h.others j u hj hne
  · refine forall_mem_setThread (fun u hu => ?_) ?_
    · simp [h.seen u hu]
    · simp [h.seen t (List.mem_of_getElem? ht), Answer.identity?, hvalue]

theorem Busy.move (h : Busy i source s) (hm : Move s j s') :
    Busy i source s' ∨ ∃ hs, Full i source hs s' := by
  cases hm with
  | stay _ => exact .inl h
  | answer ht hf _ ha =>
    have hnone := ha.identity?_eq
    rw [h.stored, or_self] at hnone
    exact .inl (h.answer ht hf hnone)
  | begin _ _ _ _ free => simp [h.owner] at free
  | emit ht hf =>
    obtain ⟨rfl, events, hh, hp⟩ := h.worker ht hf
    exact .inl (h.work ht hp.emit (by simp [setThread, hh]))
  | request ht hf _ =>
    obtain ⟨rfl, events, hh, hp⟩ := h.worker ht hf
    exact .inl (h.work ht hp.request hh)
  | announce ht hf =>
    obtain ⟨rfl, events, hh, hp⟩ := h.worker ht hf
    exact .inl (h.work ht hp.announce (by simp [setThread, hh]))
  | store ht hf =>
    obtain ⟨rfl, events, hh, hp⟩ := h.worker ht hf
    exact .inr (h.store ht hh hp)

/-! ## Full -/

theorem Full.move {hs : source.Halts mode.wants} (h : Full i source hs s) (hm : Move s j s') :
    Full i source hs s' := by
  cases hm with
  | stay _ => exact h
  | answer ht _ _ ha =>
    refine ⟨h.stored, h.owner, h.history, forall_mem_setThread h.filling rfl, ?_⟩
    refine forall_mem_setThread h.seen fun found hfound => ?_
    rw [Thread.seen_answered, List.mem_append] at hfound
    rcases hfound with hfound | hfound
    · exact h.seen _ (List.mem_of_getElem? ht) found hfound
    · have hstored := ha.identity?_eq
      rw [h.stored] at hstored
      rcases hstored with hnone | hsome <;> simp_all
  | begin _ _ _ empty _ => simp [h.stored] at empty
  | emit ht hf | request ht hf _ | announce ht hf | store ht hf =>
    simp [h.filling _ (List.mem_of_getElem? ht)] at hf

/-- In a full cell no call is answered with nothing. -/
theorem Full.answers_of_move {hs : source.Halts mode.wants} (h : Full i source hs s) (hm : Move s j s') {k : Nat}
    {t : Thread mode} (ht : s.threads[k]? = some t) :
    ∃ u new, s'.threads[k]? = some u ∧ u.answers = t.answers ++ new ∧ .read none ∉ new := by
  cases hm with
  | stay _ => exact ⟨t, [], ht, (List.append_nil _).symm, List.not_mem_nil⟩
  | @answer t' _ _ a ht' _ _ ha =>
    by_cases hk : j = k
    · subst hk
      obtain rfl := Option.some.inj (ht.symm.trans ht')
      have hne : .read none ≠ a := by
        cases ha with
        | mode | demand _ _ => exact nofun
        | read =>
          rw [h.stored]
          exact nofun
      exact ⟨_, [a], getElem?_setThread_self ht, rfl, fun hm => hne (List.mem_singleton.1 hm)⟩
    · exact ⟨t, [], (List.getElem?_set_ne hk).trans ht, (List.append_nil _).symm, List.not_mem_nil⟩
  | begin _ _ _ empty _ => simp [h.stored] at empty
  | emit ht hf | request ht hf _ | announce ht hf | store ht hf =>
    simp [h.filling _ (List.mem_of_getElem? ht)] at hf

end Shared

end CgroupMembership
