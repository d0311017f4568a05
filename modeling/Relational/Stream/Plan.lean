/-!
# Streams and the plans that make them

A stream is a lazy, possibly endless sequence of values. What lies behind its head is kept in
a cell and computed when the cell is first forced, so a stream is a value and the number of a
cell. A plan says how a stream is made. Plans are data: a cell holds the plan of its content
until it is needed, and nothing that a plan does can depend on the numbers of cells.
-/
namespace Relational

/-- The number of a cell. -/
abbrev CellId := Nat

/-- A lazy sequence of values. -/
inductive Stream (α : Type) where
  /-- No more values. -/
  | empty
  /-- A value, and the cell of the values after it. -/
  | cons (head : α) (tail : CellId)
  /-- The cell of work to be done before the next value is known. -/
  | suspended (cell : CellId)
  deriving DecidableEq

namespace Stream

variable {α : Type}

instance : Inhabited (Stream α) := ⟨empty⟩

/-- The stream as far as it is known, given the texts of values. -/
def shape (value : α → String) : Stream α → String
  | empty => "Empty"
  | cons head _ => "Cons(" ++ value head ++ ", ..)"
  | suspended _ => "Suspended(..)"

end Stream

/-- Why a computation is given up. -/
inductive Fault where
  /-- A cell was forced while its own content was being computed. -/
  | reentrant
  /-- The computation itself gave up. -/
  | raised (message : String)
  deriving DecidableEq

/-- The sentence that reports a fault. -/
def Fault.message : Fault → String
  | reentrant => "Deferred stream forced while it was being computed"
  | raised message => message

/-- A source of items that is asked for one item after another. -/
structure Source (α ε : Type) where
  /-- The item at a position, or `none` at the end. -/
  item : Nat → Option α
  /-- What the source reports when it is asked for the item at a position. -/
  report : Nat → List ε

/-- How a stream is made, from values, events and named routines. A plan may refer to streams
made before it, counted from the innermost. -/
inductive Plan (α ε ρ : Type) where
  /-- The stream without values. -/
  | empty
  /-- The stream of one value. -/
  | unit (value : α)
  /-- The items of a source. The first one is asked for at once and every other one when the
  tail before it is forced. -/
  | lazy (source : Source α ε)
  /-- A value and a tail that is made when it is forced. -/
  | cons (head : α) (tail : Plan α ε ρ)
  /-- A stream that is made when it is forced. -/
  | suspend (content : Plan α ε ρ)
  /-- A suspension of a stream that is made at once. -/
  | ready (content : Plan α ε ρ)
  /-- The values of two streams in turn. -/
  | merge (left right : Plan α ε ρ)
  /-- The values of all streams that the body makes of the values of a stream. -/
  | mapcat (source : Plan α ε ρ) (body : α → Plan α ε ρ)
  /-- A stream made at once, to which the body may refer. -/
  | share (stream body : Plan α ε ρ)
  /-- A stream made before. -/
  | ref (index : Nat)
  /-- A suspension whose content may refer to the suspension itself. -/
  | knot (content : Plan α ε ρ)
  /-- The stream after one step: the content of a suspension, the tail of a value. -/
  | force (stream : Plan α ε ρ)
  /-- An event is reported before the stream is made. -/
  | report (event : ε) (next : Plan α ε ρ)
  /-- A plan that is only worked out when it is carried out. -/
  | computed (plan : Unit → Plan α ε ρ)
  /-- No stream is made. -/
  | fail (fault : Fault)
  /-- The plan of a routine, without reference to streams made before. -/
  | call (routine : ρ)

namespace Plan

variable {α ε ρ : Type}

instance : Inhabited (Plan α ε ρ) := ⟨empty⟩

/-- Several events are reported before the stream is made. -/
def reportAll (events : List ε) (next : Plan α ε ρ) : Plan α ε ρ :=
  events.foldr report next

end Plan

end Relational
