import Mathlib.Logic.Relation
import Relational.Stream.Session

/-!
# The life of a cell

A cell is made with work to be done later or with a stream that is known. Work that is waiting may
be started; while it is under way the cell cannot be forced; and when it has come to its end the
cell holds what it came to. Work that is given up does not come to its end, and its cell stays as
it is. Whatever is run on a heap, what happens to it is a course of such moves.

What is known of a cell that is done or under way is known for good. So nothing that is run later
has to look at the cell again: `handlersAfter` answers for it from the heap as it was.
-/
namespace Relational

variable {α ε ρ : Type}

/-- The heap that a run leaves, whatever it comes to. -/
def Run.left {γ : Type} (outcome : EStateM.Result Stop (Heap α ε ρ) γ) : Heap α ε ρ :=
  match outcome with
  | .ok _ after => after
  | .error _ after => after

/-- A cell that has come so far may come to another status later, or stays. -/
inductive Status.Before : Status α → Status α → Prop where
  /-- The cell stays. -/
  | same (status : Status α) : Before status status
  /-- Its work is started. -/
  | started : Before .waiting .running
  /-- Its work comes to an end. -/
  | finished (stream : Stream α) : Before .running (.done stream)
  /-- Its work is started and comes to an end. -/
  | through (stream : Stream α) : Before .waiting (.done stream)

namespace Heap

/-- The cells whose work was started, first things first. -/
def starts (heap : Heap α ε ρ) : List CellId :=
  heap.trace.toList.filterMap fun
    | .started cell => some cell
    | .reported _ => none

/-- What may happen to a heap at a time. -/
inductive Move (before after : Heap α ε ρ) : Prop where
  /-- A cell is made for work to be done later. -/
  | defer {work : Work α ε ρ} {number : CellId} (unknown : ∀ stream, work ≠ .known stream)
    (made : Run.defer work before = .ok number after)
  /-- A cell is made for a known stream. -/
  | known {stream : Stream α} {number : CellId} (made : Run.known stream before = .ok number after)
  /-- The work of a cell that is waiting is started. -/
  | start {cell : CellId} {work : Work α ε ρ}
    (waiting : before.cells[cell]? = some ⟨work, .waiting⟩)
    (started : (do
      Run.setStatus cell .running
      Run.record (.started cell) : Run α ε ρ Unit) before = .ok () after)
  /-- The work of a cell comes to an end. -/
  | finish {cell : CellId} {work : Work α ε ρ} {stream : Stream α}
    (running : before.cells[cell]? = some ⟨work, .running⟩)
    (stored : Run.setStatus cell (.done stream) before = .ok () after)
  /-- An event is reported. -/
  | report {event : ε} (reported : Run.record (.reported event) before = .ok () after)

/-- What may happen to a heap. -/
abbrev Course : Heap α ε ρ → Heap α ε ρ → Prop := Relation.ReflTransGen Move

/-- What forcing a cell comes to from now on, if the cell is done or under way. -/
def settled? (heap : Heap α ε ρ) (cell : CellId) : Option (Run α ε ρ (Stream α)) :=
  match heap.status? cell with
  | some (.done stream) => some (pure stream)
  | some .running => some (Run.fault .reentrant)
  | _ => none

/-- How the cells of a heap have lived from an earlier to a later time. -/
structure GoesOn (early late : Heap α ε ρ) : Prop where
  /-- One move was made after another. -/
  course : early.Course late
  /-- Every cell has kept its work and has moved forward only. -/
  forward : ∀ {cell : CellId} {work : Work α ε ρ} {status : Status α},
    early.cells[cell]? = some ⟨work, status⟩ →
      ∃ status', late.cells[cell]? = some ⟨work, status'⟩ ∧ status.Before status'
  /-- A cell that was made for a known stream holds it, and nothing was ever started for it. -/
  ready : ∀ {cell : CellId} {stream : Stream α} {status : Status α},
    late.cells[cell]? = some ⟨.known stream, status⟩ →
      status = .done stream ∧ late.starts.count cell = 0
  /-- No work was started twice. -/
  once : ∀ cell, late.starts.count cell ≤ 1
  /-- Forcing a cell that was done gives what it held and changes nothing, and nothing was started
  for it in between. -/
  done : ∀ {cell : CellId} {stream : Stream α}, early.status? cell = some (.done stream) →
    (∀ handlers, forceCell handlers cell late = .ok stream late) ∧
      late.starts.count cell = early.starts.count cell
  /-- Forcing a cell that was under way, or whose work was given up, is a fault and changes nothing,
  and its work has not been started again. -/
  running : ∀ {cell : CellId}, early.status? cell = some .running →
    (∀ handlers, ∃ fault, forceCell handlers cell late = .error (.fault fault) late ∧
      fault.message = "Deferred stream forced while it was being computed") ∧
        late.starts.count cell = 1

end Heap

/-- Forcing and calling, nested to a bound, where forcing a cell that was done or under way on an
earlier heap comes to what it came to there. -/
def handlersAfter (routines : ρ → Plan α ε ρ) (early : Heap α ε ρ) : Nat → Handlers α ε ρ
  | 0 => ⟨fun _ => Run.unfinished, fun _ => Run.unfinished⟩
  | bound + 1 =>
    { force := fun cell =>
        (early.settled? cell).getD (forceCell (handlersAfter routines early bound) cell)
      call := fun routine => (routines routine).eval (handlersAfter routines early bound) [] }

/-- How the work of a cell is done that is waiting and is forced. -/
structure Heap.StartsOnce (routines : ρ → Plan α ε ρ) (bound : Nat) (heap : Heap α ε ρ)
    (cell : CellId) (work : Work α ε ρ) : Prop where
  /-- While the work is under way, forcing the cell is a fault, at any depth, and so is forcing any
  other cell whose work is under way. -/
  during : ∀ {started : Heap α ε ρ}, (do
    Run.setStatus cell .running
    Run.record (.started cell) : Run α ε ρ Unit) heap = .ok () started →
      started.settled? cell = some (Run.fault .reentrant) ∧
        work.run (handlers routines bound) started =
          work.run (handlersAfter routines started bound) started
  /-- If the work comes to its end the cell holds what it came to, and it was started once. -/
  finished : ∀ {stream : Stream α} {after : Heap α ε ρ},
    forceCell (handlers routines bound) cell heap = .ok stream after →
      after.status? cell = some (.done stream) ∧
        after.starts.count cell = heap.starts.count cell + 1
  /-- If the work is given up the cell stays without content, and it was started once. -/
  stopped : ∀ {stop : Stop} {after : Heap α ε ρ},
    forceCell (handlers routines bound) cell heap = .error stop after →
      after.status? cell = some .running ∧ after.starts.count cell = heap.starts.count cell + 1

end Relational
