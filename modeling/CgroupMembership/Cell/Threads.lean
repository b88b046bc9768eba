import CgroupMembership.Cell.Basic
import CgroupMembership.Search.Stage
/-!
# A cell shared by threads

Any number of threads use one cell, each at its own pace. The first thread that demands an identity
from the empty cell becomes its owner: it searches its source request by request and event by event,
writes the record of what it has found and then stores it. In the meantime the other demands wait,
while reads of the cell find it empty. A schedule says which thread moves next; a thread that waits
or has nothing left to do stays where it is. `run_append` says that a schedule may be followed in parts.
-/

namespace CgroupMembership

/-- How far a thread has come with filling the cell. -/
inductive Filling (mode : Mode) where
  /-- A search of this source has come to this stage; the events that led there and are still to be
  seen are `rest`. -/
  | searching (source : Source) (stage : Stage mode) (rest : Trace)
  /-- The search is over and its record has been written. -/
  | storing (result : Identity)

/-- One thread: its calls still to be answered, what it does for the first of them, and its
answers. -/
structure Thread (mode : Mode) where
  calls : List (Call mode)
  filling : Option (Filling mode)
  answers : List Answer

/-- A cell and its threads: which thread owns the cell, and all events so far with the threads that
they belong to. -/
structure Shared (mode : Mode) where
  cell : Cell mode
  owner : Option Nat
  threads : List (Thread mode)
  history : List (Nat × Event)

namespace Thread

variable {mode : Mode}

/-- A thread that has these calls to make. -/
def ofCalls (calls : List (Call mode)) : Thread mode := ⟨calls, none, []⟩

/-- The thread after its first call has been answered. -/
def answered (t : Thread mode) (a : Answer) : Thread mode :=
  ⟨t.calls.tail, none, t.answers ++ [a]⟩

/-- The thread at work on its first call. -/
def working (t : Thread mode) (f : Filling mode) : Thread mode :=
  ⟨t.calls, some f, t.answers⟩

end Thread

namespace Shared

variable {mode : Mode}

/-- Threads before their first move around a cell. -/
def start (cell : Cell mode) (programs : List (List (Call mode))) : Shared mode :=
  ⟨cell, none, programs.map Thread.ofCalls, []⟩

/-- Replaces thread `i`. -/
def setThread (s : Shared mode) (i : Nat) (t : Thread mode) : Shared mode :=
  { s with threads := s.threads.set i t }

/-- Adds an event of thread `i`. -/
def saw (s : Shared mode) (i : Nat) (e : Event) : Shared mode :=
  { s with history := s.history ++ [(i, e)] }

/-- One move of thread `i`, which is `t`, while it fills the cell. -/
def fillStep (s : Shared mode) (i : Nat) (t : Thread mode) : Filling mode → Shared mode
  | .searching source stage (e :: rest) =>
    (s.setThread i (t.working (.searching source stage rest))).saw i e
  | .searching _ (.ended found) [] =>
    let result := mode.identity found
    (s.setThread i (t.working (.storing result))).saw i (.logged (.resolved mode result))
  | .searching source stage [] =>
    let a := stage.advance source
    s.setThread i (t.working (.searching source a.value a.trace))
  | .storing result =>
    { s.setThread i (t.answered (.identity result)) with cell := ⟨some result⟩, owner := none }

/-- One move of thread `i`, which is `t`, with a demand: it is answered from a full cell, begins to
fill an empty one, or waits for the owner. -/
def demandStep (s : Shared mode) (i : Nat) (t : Thread mode) (source : Source) : Shared mode :=
  match s.cell.stored, s.owner with
  | some found, _ => s.setThread i (t.answered (.identity found))
  | none, some _ => s
  | none, none => { s.setThread i (t.working (.searching source .locating [])) with owner := some i }

/-- One move of thread `i`. -/
def step (s : Shared mode) (i : Nat) : Shared mode :=
  match s.threads[i]? with
  | none => s
  | some t =>
    match t.filling, t.calls with
    | some f, _ => s.fillStep i t f
    | none, [] => s
    | none, .mode :: _ => s.setThread i (t.answered (.mode mode))
    | none, .read :: _ => s.setThread i (t.answered (.read s.cell.stored))
    | none, .demand source :: _ => s.demandStep i t source

/-- The moves of the threads that a schedule names, in order. -/
def run (s : Shared mode) (schedule : List Nat) : Shared mode :=
  schedule.foldl step s

/-- All events of the threads, in order. -/
def trace (s : Shared mode) : Trace :=
  s.history.map Prod.snd

/-- A schedule of `rounds` rounds, in each of which every thread moves once. -/
def roundRobin (s : Shared mode) (rounds : Nat) : List Nat :=
  (List.replicate rounds (List.range s.threads.length)).flatten

/-- Lets `n` threads demand from the same source at once and move in turn until all are answered. The
owner begins, makes no more requests than it has events, sees its events and stores; then the others
are answered. -/
def demandTogether (cell : Cell mode) (n : Nat) (source : Source) (h : source.Halts mode.wants) :
    Shared mode :=
  let s := start cell (List.replicate n [.demand source])
  s.run (s.roundRobin (2 * (source.fill mode h).trace.length + 3))

theorem run_append (s : Shared mode) (a b : List Nat) : s.run (a ++ b) = (s.run a).run b := by
  simp [run]

end Shared

end CgroupMembership
