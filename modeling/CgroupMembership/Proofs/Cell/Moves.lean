import CgroupMembership.Cell.Threads
import CgroupMembership.Proofs.Cell.WriteOnce
/-!
# What one move does

`move_step` lists the moves of a thread around a cell: it waits or has nothing to do, it is answered from the
cell as a lone caller would be, it begins to fill the cell, or it goes on with that. Everything about runs of
threads follows from this list, by cases.
-/

namespace CgroupMembership

variable {mode : Mode}

/-- The identity that an answer shows, if any. -/
def Answer.identity? : Answer → Option Identity
  | .mode _ => none
  | .read stored => stored
  | .identity i => some i

theorem Cell.Recalls.identity?_eq {c : Cell mode} {call : Call mode} {a : Answer} (h : Recalls c call ⟨a, []⟩) :
    a.identity? = none ∨ a.identity? = c.stored := by
  cases h with
  | mode => exact .inl rfl
  | read => exact .inr rfl
  | demand source h => exact .inr h.symm

theorem Cell.Recalls.source?_eq_none {c : Cell mode} {call : Call mode} {t : Traced Answer} (h : Recalls c call t)
    (hc : c.stored = none) : call.source? = none := by
  cases h with
  | mode => rfl
  | read => rfl
  | demand source h => simp [hc] at h

/-- The identities that a thread has been given, in order. -/
def Thread.seen (t : Thread mode) : List Identity :=
  t.answers.filterMap Answer.identity?

@[simp]
theorem Thread.seen_answered (t : Thread mode) (a : Answer) :
    (t.answered a).seen = t.seen ++ a.identity?.toList := by
  cases h : a.identity? <;> simp [seen, answered, h]

@[simp]
theorem Thread.seen_working (t : Thread mode) (f : Filling mode) : (t.working f).seen = t.seen := rfl

namespace Shared

variable {s s' : Shared mode} {i j : Nat} {t u : Thread mode}

theorem getElem?_setThread (h : (s.setThread i t).threads[j]? = some u) :
    (j = i ∧ u = t) ∨ (j ≠ i ∧ s.threads[j]? = some u) := by
  by_cases hij : i = j
  · subst hij
    rw [setThread, List.getElem?_set_self'] at h
    obtain ⟨-, -, rfl⟩ := Option.map_eq_some_iff.1 h
    exact .inl ⟨rfl, rfl⟩
  · rw [setThread, List.getElem?_set_ne hij] at h
    exact .inr ⟨Ne.symm hij, h⟩

theorem getElem?_setThread_self (h : s.threads[i]? = some u) : (s.setThread i t).threads[i]? = some t := by
  rw [setThread, List.getElem?_set_self', h]
  rfl

theorem forall_mem_setThread {P : Thread mode → Prop} (h : ∀ t ∈ s.threads, P t) (hu : P u) :
    ∀ t ∈ (s.setThread i u).threads, P t := by
  intro t ht
  rcases List.mem_or_eq_of_mem_set ht with ht | rfl
  · exact h t ht
  · exact hu

/-- The moves of thread `i`. -/
inductive Move (s : Shared mode) (i : Nat) : Shared mode → Prop
  /-- It is not there, has no more calls or waits for the owner. -/
  | stay (idle : ∀ t, s.threads[i]? = some t →
      t.filling = none ∧ (t.calls = [] ∨ s.cell.stored = none ∧ s.owner.isSome = true)) : Move s i s
  /-- It is answered from the cell as it is. -/
  | answer {t call calls a} (ht : s.threads[i]? = some t) (hf : t.filling = none)
    (hc : t.calls = call :: calls) (ha : Cell.Recalls s.cell call ⟨a, []⟩) :
    Move s i (s.setThread i (t.answered a))
  /-- It begins to fill the empty cell. -/
  | begin {t source calls} (ht : s.threads[i]? = some t) (hf : t.filling = none)
    (hc : t.calls = .demand source :: calls) (empty : s.cell.stored = none) (free : s.owner = none) :
    Move s i { s.setThread i (t.working (.searching source .locating [])) with owner := some i }
  /-- One more event of the last request is seen. -/
  | emit {t source stage e rest} (ht : s.threads[i]? = some t)
    (hf : t.filling = some (.searching source stage (e :: rest))) :
    Move s i ((s.setThread i (t.working (.searching source stage rest))).saw i e)
  /-- It makes the next request. -/
  | request {t source stage} (ht : s.threads[i]? = some t)
    (hf : t.filling = some (.searching source stage [])) (hs : ∀ found, stage ≠ .ended found) :
    Move s i (s.setThread i
      (t.working (.searching source (stage.advance source).value (stage.advance source).trace)))
  /-- It announces what it has found. -/
  | announce {t source found} (ht : s.threads[i]? = some t)
    (hf : t.filling = some (.searching source (.ended found) [])) :
    Move s i ((s.setThread i (t.working (.storing (mode.identity found)))).saw i
      (.logged (.resolved mode (mode.identity found))))
  /-- It stores what it has found, which is its answer. -/
  | store {t result} (ht : s.threads[i]? = some t) (hf : t.filling = some (.storing result)) :
    Move s i { s.setThread i (t.answered (.identity result)) with cell := ⟨some result⟩, owner := none }

theorem move_fillStep {f : Filling mode} (ht : s.threads[i]? = some t) (hf : t.filling = some f) :
    Move s i (s.fillStep i t f) := by
  unfold fillStep
  split
  · exact .emit ht hf
  · exact .announce ht hf
  · rename_i hs
    exact .request ht hf hs
  · exact .store ht hf

theorem move_demandStep {source : Source} {calls : List (Call mode)} (ht : s.threads[i]? = some t)
    (hf : t.filling = none) (hc : t.calls = .demand source :: calls) : Move s i (s.demandStep i t source) := by
  unfold demandStep
  split
  · rename_i hs
    exact .answer ht hf hc (.demand source hs)
  · rename_i owner hs ho
    refine .stay fun u hu => ?_
    obtain rfl := Option.some.inj (ht.symm.trans hu)
    exact ⟨hf, .inr ⟨hs, by rw [ho]; rfl⟩⟩
  · rename_i hs ho
    exact .begin ht hf hc hs ho

theorem move_step (s : Shared mode) (i : Nat) : Move s i (s.step i) := by
  unfold step
  split
  · rename_i hnone
    exact .stay fun t ht => by simp [hnone] at ht
  · rename_i t ht
    split
    · rename_i f hf
      exact move_fillStep ht hf
    · rename_i hf hc
      refine .stay fun u hu => ?_
      obtain rfl := Option.some.inj (ht.symm.trans hu)
      exact ⟨hf, .inl hc⟩
    · rename_i hf hc
      exact .answer ht hf hc .mode
    · rename_i hf hc
      exact .answer ht hf hc .read
    · rename_i hf hc
      exact move_demandStep ht hf hc

/-- A thread with calls to make goes on with the first of them, unless it waits for the owner. -/
theorem Move.goes_on (hm : Move s i s') (ht : s.threads[i]? = some t) (hf : t.filling = none) (hc : t.calls ≠ []) :
    (∃ a, s'.threads[i]? = some (t.answered a)) ∨ (∃ f, s'.threads[i]? = some (t.working f)) ∨
      s.owner.isSome = true := by
  cases hm with
  | stay idle =>
    obtain ⟨-, howner⟩ := (idle t ht).2.resolve_left hc
    exact .inr (.inr howner)
  | answer ht' _ _ _ =>
    obtain rfl := Option.some.inj (ht.symm.trans ht')
    exact .inl ⟨_, getElem?_setThread_self ht⟩
  | begin ht' _ _ _ _ =>
    obtain rfl := Option.some.inj (ht.symm.trans ht')
    exact .inr (.inl ⟨_, getElem?_setThread_self ht⟩)
  | emit ht' hf' | request ht' hf' _ | announce ht' hf' | store ht' hf' =>
    obtain rfl := Option.some.inj (ht.symm.trans ht')
    simp [hf] at hf'

end Shared

end CgroupMembership
