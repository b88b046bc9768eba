import Mathlib.Data.List.Forall2
import CgroupMembership.Proofs.Cell.Moves
/-!
# Threads keep to their programs

A thread makes the calls of its program in order, and it has an answer to each call that it has made, of the kind
that the call asks for. While it fills the cell, its next call is a demand. Every move keeps this
(`follows_of_move`), so it holds after every run (`follows_run`).
-/

namespace CgroupMembership

variable {mode : Mode}

/-- The answer is of the kind that the call asks for. -/
inductive Call.Admits : Call mode → Answer → Prop
  | mode : Admits .mode (.mode mode)
  | read (stored : Option Identity) : Admits .read (.read stored)
  | demand (source : Source) (found : Identity) : Admits (.demand source) (.identity found)

theorem Cell.Recalls.admits {c : Cell mode} {call : Call mode} {a : Answer} (h : Recalls c call ⟨a, []⟩) :
    call.Admits a := by
  cases h with
  | mode => exact .mode
  | read => exact .read c.stored
  | demand source _ => exact .demand source _

namespace Thread

/-- The thread has an answer to each of the first calls of the program, and the others are still to be made. -/
structure Follows (program : List (Call mode)) (t : Thread mode) : Prop where
  made : ∃ done, program = done ++ t.calls ∧ List.Forall₂ Call.Admits done t.answers
  demanding : t.filling.isSome = true → ∃ source calls, t.calls = .demand source :: calls

variable {program calls : List (Call mode)} {call : Call mode} {t : Thread mode} {a : Answer}

theorem follows_ofCalls (program : List (Call mode)) : (ofCalls program).Follows program where
  made := ⟨[], rfl, .nil⟩
  demanding := nofun

theorem Follows.answered (h : t.Follows program) (hc : t.calls = call :: calls) (ha : call.Admits a) :
    (t.answered a).Follows program where
  made := by
    obtain ⟨done, hp, hd⟩ := h.made
    refine ⟨done ++ [call], ?_, List.rel_append hd (.cons ha .nil)⟩
    rw [hp, Thread.answered, hc, List.tail_cons, List.append_assoc, List.singleton_append]
  demanding := nofun

theorem Follows.working (h : t.Follows program) (hc : ∃ source calls, t.calls = .demand source :: calls)
    (f : Filling mode) : (t.working f).Follows program where
  made := h.made
  demanding _ := hc

end Thread

namespace Shared

variable {programs : List (List (Call mode))} {s s' : Shared mode} {i : Nat} {t u : Thread mode}

theorem follows_start (cell : Cell mode) (programs : List (List (Call mode))) :
    List.Forall₂ Thread.Follows programs (start cell programs).threads := by
  unfold start
  rw [List.forall₂_map_right_iff, List.forall₂_same]
  intro program _
  exact Thread.follows_ofCalls program

theorem exists_of_forall₂_getElem? {α β : Type} {R : α → β → Prop} {as : List α} {bs : List β}
    (h : List.Forall₂ R as bs) {n : Nat} {a : α} (ha : as[n]? = some a) : ∃ b, bs[n]? = some b ∧ R a b := by
  obtain ⟨hn, rfl⟩ := List.getElem?_eq_some_iff.1 ha
  have hn' : n < bs.length := h.length_eq ▸ hn
  exact ⟨_, List.getElem?_eq_getElem hn', h.get hn hn'⟩

theorem forall₂_setThread {R : List (Call mode) → Thread mode → Prop} (h : List.Forall₂ R programs s.threads)
    (ht : s.threads[i]? = some t) (hu : ∀ program, R program t → R program u) :
    List.Forall₂ R programs (s.setThread i u).threads := by
  unfold setThread
  generalize s.threads = ts at h ht
  induction h generalizing i with
  | nil => cases ht
  | @cons program _ _ _ hr hrs ih =>
    cases i with
    | zero =>
      obtain rfl := Option.some.inj ht
      exact .cons (hu program hr) hrs
    | succ i => exact .cons hr (ih ht)

theorem follows_of_move (h : List.Forall₂ Thread.Follows programs s.threads) (hm : Move s i s') :
    List.Forall₂ Thread.Follows programs s'.threads := by
  cases hm with
  | stay _ => exact h
  | answer ht _ hc ha =>
    apply forall₂_setThread h ht
    intro program hp
    exact hp.answered hc ha.admits
  | begin ht _ hc _ _ =>
    apply forall₂_setThread h ht
    intro program hp
    exact hp.working ⟨_, _, hc⟩ _
  | emit ht hf | request ht hf _ | announce ht hf =>
    apply forall₂_setThread h ht
    intro program hp
    exact hp.working (hp.demanding (by rw [hf]; rfl)) _
  | store ht hf =>
    apply forall₂_setThread h ht
    intro program hp
    obtain ⟨source, calls, hc⟩ := hp.demanding (by rw [hf]; rfl)
    exact hp.answered hc (.demand source _)

theorem follows_run (h : List.Forall₂ Thread.Follows programs s.threads) (schedule : List Nat) :
    List.Forall₂ Thread.Follows programs (s.run schedule).threads := by
  induction schedule generalizing s with
  | nil => exact h
  | cons j schedule ih => exact ih (follows_of_move h (move_step s j))

end Shared

end CgroupMembership
