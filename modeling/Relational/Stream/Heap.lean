import Relational.Stream.Plan

/-!
# Heaps of cells

A cell holds the work that computes its content and how far that has come. Forcing a cell for
the first time starts its work, and its content is stored when the work has ended. A fault
ends all work that is under way: what was stored stays, and the cells whose work was under way
stay without content. A heap also records what happened: each start of a cell's work and each
event.
-/
namespace Relational

/-- How the content of a cell is computed. The cells and streams in it are older than the
cell, unless it refers to itself. -/
inductive Work (α ε ρ : Type) where
  /-- The content is a stream made before. -/
  | known (stream : Stream α)
  /-- The content is made by a plan that may refer to the streams of its scope. -/
  | plan (content : Plan α ε ρ) (scope : List (Stream α))
  /-- The content of one cell in turn with that of another. -/
  | merge (first second : CellId)
  /-- What the body makes of the values in a cell. -/
  | mapcat (source : CellId) (body : α → Plan α ε ρ) (scope : List (Stream α))
  /-- The items of a source from a position on. -/
  | pull (source : Source α ε) (position : Nat)

/-- How far a cell has come. -/
inductive Status (α : Type) where
  /-- Its work has not been started. -/
  | waiting
  /-- Its work has been started and has not come to an end. -/
  | running
  /-- Its content is known. -/
  | done (stream : Stream α)

/-- A cell. -/
structure Cell (α ε ρ : Type) where
  /-- How its content is computed. -/
  work : Work α ε ρ
  /-- How far that has come. -/
  status : Status α

/-- Something that happened. -/
inductive Occurrence (ε : Type) where
  /-- The work of a cell was started. -/
  | started (cell : CellId)
  /-- An event was reported. -/
  | reported (event : ε)

/-- The cells made so far, and what happened to them. -/
structure Heap (α ε ρ : Type) where
  /-- The cells by their numbers. -/
  cells : Array (Cell α ε ρ)
  /-- What happened, first things first. -/
  trace : Array (Occurrence ε)

namespace Heap

variable {α ε ρ : Type}

/-- The heap without cells. -/
def empty : Heap α ε ρ := ⟨#[], #[]⟩

/-- The events reported, first things first. -/
def events (heap : Heap α ε ρ) : List ε :=
  heap.trace.toList.filterMap fun
    | .started _ => none
    | .reported event => some event

/-- The same cells with nothing recorded. -/
def forget (heap : Heap α ε ρ) : Heap α ε ρ := { heap with trace := #[] }

/-- How far a cell has come, if there is such a cell. -/
def status? (heap : Heap α ε ρ) (cell : CellId) : Option (Status α) :=
  heap.cells[cell]?.map (·.status)

end Heap

/-- Why a run ends without a result. -/
inductive Stop where
  /-- The computation was given up. -/
  | fault (fault : Fault)
  /-- The bound on its length was too small. -/
  | unfinished
  deriving DecidableEq

/-- A computation on a heap. The heap is kept also where the computation is given up. -/
abbrev Run (α ε ρ γ : Type) := EStateM Stop (Heap α ε ρ) γ

namespace Run

variable {α ε ρ : Type}

/-- Makes a cell. -/
def allocate (cell : Cell α ε ρ) : Run α ε ρ CellId := fun heap =>
  let number := heap.cells.size
  .ok number { heap with cells := heap.cells.push cell }

/-- Makes a cell for work to be done later. -/
def defer (work : Work α ε ρ) : Run α ε ρ CellId := allocate ⟨work, .waiting⟩

/-- Makes a cell for a stream that is known already. -/
def known (stream : Stream α) : Run α ε ρ CellId := allocate ⟨.known stream, .done stream⟩

/-- Records what happens. -/
def record (occurrence : Occurrence ε) : Run α ε ρ Unit := fun heap =>
  .ok () { heap with trace := heap.trace.push occurrence }

/-- Reports events. -/
def report : List ε → Run α ε ρ Unit
  | [] => pure ()
  | event :: events => do
    record (.reported event)
    report events

/-- Moves a cell on. -/
def setStatus (cell : CellId) (status : Status α) : Run α ε ρ Unit := fun heap =>
  .ok () { heap with cells := heap.cells.modify cell fun old => { old with status } }

/-- Gives up. -/
def fault {γ : Type} (fault : Fault) : Run α ε ρ γ := throw (.fault fault)

/-- Ends at the bound. -/
def unfinished {γ : Type} : Run α ε ρ γ := throw .unfinished

end Run

end Relational
