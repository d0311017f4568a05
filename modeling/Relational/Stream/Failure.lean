import Relational.Stream.Consumers
import Relational.Stream.LifeCycle

/-!
# Pulls that are given up

When work is given up, so is all work that waits for it, up to the pull that asked for the value.
What other consumers find afterwards is written in the cells: a stream leads over cells that are
done to its values one after another, and in the end to a cell whose work was given up. Whoever
comes there cannot go on either.
-/
namespace Relational

variable {α ε ρ : Type}

namespace Heap

/-- Over at most so many cells that are done a stream leads to its next value and the stream after
it, or to its end. -/
inductive Knows (heap : Heap α ε ρ) : Nat → Stream α → Option (α × Stream α) → Prop where
  /-- The end is here. -/
  | empty (reach : Nat) : Knows heap reach .empty none
  /-- The value is here. -/
  | cons (reach : Nat) (head : α) (tail : CellId) :
    Knows heap reach (.cons head tail) (some (head, .suspended tail))
  /-- The cell is done. -/
  | done {reach : Nat} {cell : CellId} {stream : Stream α} {seen : Option (α × Stream α)}
    (known : heap.status? cell = some (.done stream)) (further : Knows heap reach stream seen) :
    Knows heap (reach + 1) (.suspended cell) seen

/-- Over at most so many cells a stream leads to one whose work is under way or was given up, and
all cells before that one are done. -/
inductive Blocks (heap : Heap α ε ρ) (failing : CellId) : Nat → Stream α → Prop where
  /-- The cell is here. -/
  | here {reach : Nat} (running : heap.status? failing = some .running) :
    Blocks heap failing (reach + 1) (.suspended failing)
  /-- The cell is done. -/
  | done {reach : Nat} {cell : CellId} {stream : Stream α}
    (known : heap.status? cell = some (.done stream)) (further : Blocks heap failing reach stream) :
    Blocks heap failing (reach + 1) (.suspended cell)

/-- A stream leads to values one after another, each over at most so many cells that are done, and
to the stream after the last of them. -/
inductive Yields (heap : Heap α ε ρ) (reach : Nat) : Stream α → List α → Stream α → Prop where
  /-- There are no more of them. -/
  | nil (stream : Stream α) : Yields heap reach stream [] stream
  /-- A value is followed by others. -/
  | cons {stream rest last : Stream α} {value : α} {values : List α}
    (first : heap.Knows reach stream (some (value, rest)))
    (others : Yields heap reach rest values last) :
    Yields heap reach stream (value :: values) last

/-- What looking for the next value of a stream leaves behind: the value or the end that was found
is known, and if a fault was met the stream leads to work that was given up. -/
def LookedOver (reach : Nat) (stream : Stream α) :
    EStateM.Result Stop (Heap α ε ρ) (Option (α × Stream α)) → Prop
  | .ok seen after => after.Knows reach stream seen
  | .error (.fault _) after => ∃ failing, after.Blocks failing reach stream
  | .error .unfinished _ => True

end Heap

/-- The response says that an iterator was made, the one with this number. -/
def Response.makes (number : Nat) : Response α → Bool
  | iterator made _ => made == number
  | _ => false

/-- What a pull came to. -/
def Response.outcome? : Response α → Option (Except Stop (Option α))
  | pulled value _ => some (.ok value)
  | stopped stop => some (.error stop)
  | _ => none

namespace Session

/-- What the pulls of an iterator come to, also where they are given up, first things first. -/
def attempts (iterator : Nat) (actions : List (Action α ε ρ)) (responses : List (Response α)) :
    List (Except Stop (Option α)) :=
  (actions.zip responses).filterMap fun
    | (.pull number, response) => if number = iterator then response.outcome? else none
    | _ => none

/-- What the pulls of an iterator come to once it is made. -/
def outcomes (iterator : Nat) :
    List (Action α ε ρ) → List (Response α) → List (Except Stop (Option α))
  | _ :: actions, response :: responses =>
    if response.makes iterator then attempts iterator actions responses
    else outcomes iterator actions responses
  | _, _ => []

/-- What pulls come to that give values. -/
def given (values : List α) : List (Except Stop (Option α)) :=
  values.map fun value => .ok (some value)

/-- What so many pulls come to that give values, then meet a cell whose work was given up, and then
give nothing. -/
def brokenOff (values : List α) (count : Nat) : List (Except Stop (Option α)) :=
  let behind : List (Except Stop (Option α)) :=
    .error (.fault .reentrant) :: List.replicate count (.ok none)
  (given values ++ behind).take count

/-- What a pull leaves behind that is given up, from the session before it to any later one. -/
structure Aftermath (routines : ρ → Plan α ε ρ) (bound one : Nat)
    (before failed late : Session α ε ρ) : Prop where
  /-- The iterator is empty: pulling it gives nothing, and nothing else happens. -/
  finished : late.iterator one = ⟨.empty⟩ ∧
    late.perform routines bound (.pull one) = (.pulled none ⟨.empty⟩, late)
  /-- A cell that was done before holds its stream still. -/
  kept : ∀ {cell : CellId} {stream : Stream α},
    before.heap.status? cell = some (.done stream) → failed.heap.status? cell = some (.done stream)
  /-- A cell that is done gives its stream to whoever forces it, and its work is not started
  again. -/
  done : ∀ {cell : CellId} {stream : Stream α},
    failed.heap.status? cell = some (.done stream) →
      late.heap.status? cell = some (.done stream) ∧
        (∀ handlers, forceCell handlers cell late.heap = .ok stream late.heap) ∧
          late.heap.starts.count cell = failed.heap.starts.count cell
  /-- A cell whose work was under way stays without a stream: whoever forces it gives up with one
  and the same message, and its work is not started again. -/
  lost : ∀ {cell : CellId}, failed.heap.status? cell = some .running →
    late.heap.status? cell = some .running ∧
      (∀ handlers, ∃ fault, forceCell handlers cell late.heap = .error (.fault fault) late.heap ∧
        fault.message = "Deferred stream forced while it was being computed") ∧
          failed.heap.starts.count cell = 1 ∧ late.heap.starts.count cell = 1

end Session

end Relational
