import CgroupMembership.Search
/-!
# Write-once cells

A cell keeps the identity of the process. The first demand finds it in its source and stores it,
and every later demand gets what is stored, whatever its source: it need not even be one in which a
search comes to a stop. The mode of the search belongs to the type of the cell. `demand_of_stored` and
`demand_of_empty` say what a demand does with either cell.
-/

namespace CgroupMembership

/-- The events of filling a cell: those of the search, and then a record of its result. -/
def Source.fill (s : Source) (mode : Mode) (h : s.Halts mode.wants) : Traced Identity :=
  (s.identify mode h).andThen fun i => ⟨i, [.logged (.resolved mode i)]⟩

/-- A place for the identity that is found in a mode. -/
structure Cell (mode : Mode) where
  stored : Option Identity
  deriving DecidableEq

/-- What a cell can be asked for. -/
inductive Call (mode : Mode) where
  /-- The mode of its search. -/
  | mode
  /-- The identity that is stored, if any. -/
  | read
  /-- An identity, to be found in this source if none is stored. -/
  | demand (source : Source)

/-- What a cell gives. -/
inductive Answer where
  | mode (m : Mode)
  | read (stored : Option Identity)
  | identity (i : Identity)
  deriving DecidableEq

namespace Call

variable {mode : Mode}

/-- The source of a demand. -/
def source? : Call mode → Option Source
  | .demand s => some s
  | _ => none

/-- The source of the first demand. -/
def firstSource? (calls : List (Call mode)) : Option Source :=
  calls.findSome? source?

end Call

namespace Cell

variable {mode : Mode}

/-- A cell that nothing is stored in. -/
def empty : Cell mode := ⟨none⟩

/-- The calls come to an answer one after another: if nothing is stored, the search that the first
demand sets off comes to a stop. -/
def Answerable (c : Cell mode) (calls : List (Call mode)) : Prop :=
  c.stored = none → ∀ s, Call.firstSource? calls = some s → s.Halts mode.wants

/-- The identity that the cell answers a demand with, and the cell after it. -/
def demand (c : Cell mode) (s : Source) (h : c.stored = none → s.Halts mode.wants) :
    Traced Identity × Cell mode :=
  match hc : c.stored with
  | some i => (⟨i, []⟩, c)
  | none =>
    let t := s.fill mode (h hc)
    (t, ⟨some t.value⟩)

/-- The answer to a call, and the cell after it. -/
def answer (c : Cell mode) : (call : Call mode) → c.Answerable [call] → Traced Answer × Cell mode
  | .mode, _ => (⟨.mode mode, []⟩, c)
  | .read, _ => (⟨.read c.stored, []⟩, c)
  | .demand s, h =>
    let r := c.demand s fun hc => h hc s rfl
    (r.1.map .identity, r.2)

theorem demand_of_stored {c : Cell mode} {i : Identity} (s : Source)
    (h : c.stored = none → s.Halts mode.wants) (hc : c.stored = some i) :
    c.demand s h = (⟨i, []⟩, c) := by
  unfold demand
  split
  · rename_i j hj
    rw [hc, Option.some.injEq] at hj
    rw [hj]
  · simp_all

theorem demand_of_empty {c : Cell mode} (s : Source) (h : c.stored = none → s.Halts mode.wants)
    (hc : c.stored = none) : c.demand s h = (s.fill mode (h hc), ⟨some (s.fill mode (h hc)).value⟩) := by
  unfold demand
  split
  · simp_all
  · rfl

theorem Answerable.head {c : Cell mode} {call : Call mode} {calls : List (Call mode)}
    (h : c.Answerable (call :: calls)) : c.Answerable [call] := by
  intro hc s hs
  refine h hc s ?_
  cases call <;> simp_all [Call.firstSource?, Call.source?, List.findSome?_cons]

theorem Answerable.tail {c : Cell mode} {call : Call mode} {calls : List (Call mode)}
    (h : c.Answerable (call :: calls)) : (c.answer call h.head).2.Answerable calls := by
  cases call with
  | mode => exact h
  | read => exact h
  | demand s =>
    -- After a demand something is stored, so nothing is left to be searched.
    intro hn
    cases hc : c.stored with
    | some i => simp [answer, demand_of_stored s _ hc, hc] at hn
    | none => simp [answer, demand_of_empty s _ hc] at hn

/-- The answers to calls made one after another, and the cell after them. -/
def answers (c : Cell mode) :
    (calls : List (Call mode)) → c.Answerable calls → List (Traced Answer) × Cell mode
  | [], _ => ([], c)
  | call :: calls, h =>
    let r := c.answer call h.head
    let rest := r.2.answers calls h.tail
    (r.1 :: rest.1, rest.2)

end Cell

end CgroupMembership
