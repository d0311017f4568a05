import Relational.Stream.Heap

/-!
# Making and forcing streams

Plans are carried out on a heap. A merge takes its values from both sides in turn: after a
value or a suspension of one side the other side comes first. A flat map merges the stream
made of a value with the flat map of the values after it, which is deferred; where that stream
is empty the rest is suspended, so making a flat map never runs through a source.

Forcing a cell may force other cells and call routines. Both are given to these functions as
`Handlers`; `handlers` ties the knot with a bound on how deeply they may be nested.
-/
namespace Relational

variable {α ε ρ : Type}

/-- What carrying out a plan needs besides the plan. -/
structure Handlers (α ε ρ : Type) where
  /-- The content of a cell. -/
  force : CellId → Run α ε ρ (Stream α)
  /-- The stream of a routine. -/
  call : ρ → Run α ε ρ (Stream α)

namespace Source

/-- Asks a source for the item at a position, and defers all items after it. -/
def pull (source : Source α ε) (position : Nat) : Run α ε ρ (Stream α) := do
  Run.report (source.report position)
  match source.item position with
  | none => pure .empty
  | some item => do
    let tail ← Run.defer (.pull source (position + 1))
    pure (.cons item tail)

end Source

namespace Stream

/-- The values of a stream and of a cell's content in turn, the stream first. -/
def mergeWith (handlers : Handlers α ε ρ) (first : Stream α) (second : CellId) :
    Run α ε ρ (Stream α) :=
  match first with
  | empty => handlers.force second
  | cons head tail => do
    let rest ← Run.defer (.merge second tail)
    pure (cons head rest)
  | suspended cell => do
    let rest ← Run.defer (.merge second cell)
    pure (suspended rest)

/-- The values of two streams in turn, the first stream first. -/
def merge (handlers : Handlers α ε ρ) (first second : Stream α) : Run α ε ρ (Stream α) := do
  let other ← Run.known second
  first.mergeWith handlers other

/-- What the body makes of the values of a stream, where `apply` carries the body out. -/
def mapcatWith (handlers : Handlers α ε ρ) (body : α → Plan α ε ρ) (scope : List (Stream α))
    (apply : α → Run α ε ρ (Stream α)) (source : Stream α) : Run α ε ρ (Stream α) :=
  match source with
  | empty => pure empty
  | cons head tail => do
    let first ← apply head
    let rest ← Run.defer (.mapcat tail body scope)
    match first with
    | empty => pure (suspended rest)
    | first => first.mergeWith handlers rest
  | suspended cell => do
    let rest ← Run.defer (.mapcat cell body scope)
    pure (suspended rest)

/-- One step along a stream: the content of a suspension, the tail of a value. -/
def step (handlers : Handlers α ε ρ) : Stream α → Run α ε ρ (Stream α)
  | empty => pure empty
  | cons _ tail => handlers.force tail
  | suspended cell => handlers.force cell

end Stream

namespace Plan

/-- Carries out a plan that may refer to the streams of a scope. -/
def eval (handlers : Handlers α ε ρ) (scope : List (Stream α)) :
    Plan α ε ρ → Run α ε ρ (Stream α)
  | empty => pure .empty
  | unit value => do
    let tail ← Run.known .empty
    pure (.cons value tail)
  | lazy source => source.pull 0
  | cons head tail => do
    let rest ← Run.defer (.plan tail scope)
    pure (.cons head rest)
  | suspend content => do
    let cell ← Run.defer (.plan content scope)
    pure (.suspended cell)
  | ready content => do
    let stream ← eval handlers scope content
    let cell ← Run.known stream
    pure (.suspended cell)
  | merge left right => do
    let first ← eval handlers scope left
    let second ← eval handlers scope right
    first.merge handlers second
  | mapcat source body => do
    let stream ← eval handlers scope source
    stream.mapcatWith handlers body scope fun value => eval handlers scope (body value)
  | share stream body => do
    let shared ← eval handlers scope stream
    eval handlers (shared :: scope) body
  | ref index => pure (scope.getD index .empty)
  | knot content => fun heap =>
    let self := heap.cells.size
    (do
      let cell ← Run.defer (.plan content (.suspended self :: scope))
      pure (.suspended cell) : Run α ε ρ (Stream α)) heap
  | force stream => do
    let stream ← eval handlers scope stream
    stream.step handlers
  | report event next => do
    Run.record (.reported event)
    eval handlers scope next
  | computed plan => eval handlers scope (plan ())
  | fail fault => Run.fault fault
  | call routine => handlers.call routine

end Plan

/-- Does the work of a cell. -/
def Work.run (handlers : Handlers α ε ρ) : Work α ε ρ → Run α ε ρ (Stream α)
  | known stream => pure stream
  | plan content scope => content.eval handlers scope
  | merge first second => do
    let stream ← handlers.force first
    stream.mergeWith handlers second
  | mapcat source body scope => do
    let stream ← handlers.force source
    stream.mapcatWith handlers body scope fun value => (body value).eval handlers scope
  | pull source position => source.pull position

/-- The content of a cell. Work not yet started is done now and its result stored; work under
way is a fault. -/
def forceCell (handlers : Handlers α ε ρ) (number : CellId) : Run α ε ρ (Stream α) := fun heap =>
  match heap.cells[number]? with
  | none => .ok .empty heap
  | some cell =>
    match cell.status with
    | .done stream => .ok stream heap
    | .running => .error (.fault .reentrant) heap
    | .waiting =>
      (do
        Run.setStatus number .running
        Run.record (.started number)
        let stream ← cell.work.run handlers
        Run.setStatus number (.done stream)
        pure stream : Run α ε ρ (Stream α)) heap

/-- Forcing and calling, nested to a bound. -/
def handlers (routines : ρ → Plan α ε ρ) : Nat → Handlers α ε ρ
  | 0 => ⟨fun _ => Run.unfinished, fun _ => Run.unfinished⟩
  | bound + 1 =>
    { force := fun cell => forceCell (handlers routines bound) cell
      call := fun routine => (routines routine).eval (handlers routines bound) [] }

/-!
## Pulling values

An iterator consumes a stream value by value. The tail behind a value is forced when the value
after it is asked for and not before. An iterator whose pull is given up is left empty.
-/

namespace Stream

/-- A position in a stream. -/
structure Iterator (α : Type) where
  /-- The stream from the position on. -/
  pending : Stream α
  deriving DecidableEq

/-- The next value of a stream and the stream after it, forcing at most so many suspensions. -/
def uncons? (handlers : Handlers α ε ρ) : Nat → Stream α → Run α ε ρ (Option (α × Stream α))
  | _, empty => pure none
  | _, cons head tail => pure (some (head, suspended tail))
  | 0, suspended _ => Run.unfinished
  | bound + 1, suspended cell => do
    let stream ← handlers.force cell
    uncons? handlers bound stream

/-- What a pull leaves behind. -/
structure Pull (α ε ρ γ : Type) where
  /-- What was pulled, or why nothing was. -/
  outcome : Except Stop γ
  /-- The position afterwards. -/
  iterator : Iterator α
  /-- The heap afterwards. -/
  heap : Heap α ε ρ

namespace Iterator

/-- Pulls the next value, if there is one. -/
def next (handlers : Handlers α ε ρ) (bound : Nat) (iterator : Iterator α) (heap : Heap α ε ρ) :
    Pull α ε ρ (Option α) :=
  match uncons? handlers bound iterator.pending heap with
  | .ok (some (value, rest)) heap => ⟨.ok (some value), ⟨rest⟩, heap⟩
  | .ok none heap => ⟨.ok none, ⟨.empty⟩, heap⟩
  | .error stop heap => ⟨.error stop, ⟨.empty⟩, heap⟩

/-- Pulls at most so many values, after those pulled before. -/
def takeAfter (handlers : Handlers α ε ρ) (bound : Nat) (before : List α) :
    Nat → Iterator α → Heap α ε ρ → Pull α ε ρ (List α)
  | 0, iterator, heap => ⟨.ok before.reverse, iterator, heap⟩
  | count + 1, iterator, heap =>
    match iterator.next handlers bound heap with
    | ⟨.ok (some value), iterator, heap⟩ =>
      takeAfter handlers bound (value :: before) count iterator heap
    | ⟨.ok none, iterator, heap⟩ => ⟨.ok before.reverse, iterator, heap⟩
    | ⟨.error stop, iterator, heap⟩ => ⟨.error stop, iterator, heap⟩

/-- Pulls at most so many values. -/
def take (handlers : Handlers α ε ρ) (bound count : Nat) (iterator : Iterator α)
    (heap : Heap α ε ρ) : Pull α ε ρ (List α) :=
  takeAfter handlers bound [] count iterator heap

/-- What so many pulls come to, one after another, those after the end included. -/
def pulls (handlers : Handlers α ε ρ) (bound : Nat) :
    Nat → Iterator α → Heap α ε ρ → List (Except Stop (Option α))
  | 0, _, _ => []
  | count + 1, iterator, heap =>
    let pull := iterator.next handlers bound heap
    pull.outcome :: pulls handlers bound count pull.iterator pull.heap

/-- The position as far as it is known, given the texts of values. -/
def describe (value : α → String) (iterator : Iterator α) : String :=
  "IntoIter \x7b pending: " ++ iterator.pending.shape value ++ " \x7d"

end Iterator

end Stream

end Relational
