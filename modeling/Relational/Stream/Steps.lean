import Relational.Stream.Machine

/-!
# Step sequences

Seen from outside a stream is a sequence of steps: a value, a tick where work has to be done
before the next value is known, and an end if there is one. The first steps of a stream are
found by forcing one cell after another, none behind the last step asked for.

Merges and flat maps are laws about such sequences: a merge alternates between its two
sequences (`Steps.alternate`), and a flat map alternates the sequence made of a value with
what comes of the values after it (`Steps.flatMap`).
-/
namespace Relational

variable {α ε ρ : Type}

/-- What is seen of a stream at a time. -/
inductive Step (α : Type) where
  /-- A value. -/
  | value (value : α)
  /-- Work that was done before the next value is known. -/
  | tick
  /-- No more values. -/
  | finish
  deriving DecidableEq

/-- The first steps of a sequence. The end stands at the end only; a list without it leaves
open how the sequence goes on. -/
abbrev Steps (α : Type) := List (Step α)

namespace Stream

/-- The first steps of a stream, at most so many. -/
def observe (handlers : Handlers α ε ρ) : Nat → Stream α → Run α ε ρ (Steps α)
  | 0, _ => pure []
  | _ + 1, empty => pure [.finish]
  | 1, cons head _ => pure [.value head]
  | 1, suspended _ => pure [.tick]
  | count + 2, cons head tail => do
    let stream ← handlers.force tail
    let steps ← observe handlers (count + 1) stream
    pure (.value head :: steps)
  | count + 2, suspended cell => do
    let stream ← handlers.force cell
    let steps ← observe handlers (count + 1) stream
    pure (.tick :: steps)

/-- The first steps of a stream on a heap are these, whatever bound on nesting is needed to
find them. -/
def Shows (routines : ρ → Plan α ε ρ) (heap : Heap α ε ρ) (stream : Stream α) (count : Nat)
    (steps : Steps α) : Prop :=
  ∃ bound after, stream.observe (handlers routines bound) count heap = .ok steps after

end Stream

namespace Steps

/-- The steps of two sequences in turn, as far as they are known; after the end of one
sequence the steps of the other. -/
def alternate : Steps α → Steps α → Steps α
  | [], _ => []
  | .finish :: _, others => others
  | .tick :: steps, others => .tick :: alternate others steps
  | .value value :: steps, others => .value value :: alternate others steps
termination_by steps others => steps.length + others.length

/-- What becomes of a sequence when each value is replaced by a sequence: a value whose
sequence ends at once is a tick, and any other sequence takes turns with the rest. -/
def flatMap (body : α → Steps α) : Steps α → Steps α
  | [] => []
  | .finish :: _ => [.finish]
  | .tick :: steps => .tick :: flatMap body steps
  | .value value :: steps =>
    match body value with
    | .finish :: _ => .tick :: flatMap body steps
    | first => alternate first (flatMap body steps)

/-- The values among some steps. -/
def values (steps : Steps α) : List α :=
  steps.filterMap fun
    | .value value => some value
    | .tick => none
    | .finish => none

end Steps

/-!
## What is asked for

Whoever looks at the first steps of a stream asks for no more than these, and so does whoever takes
its first values. Two streams may go on in different ways behind the steps that are asked for, or
one of them not at all, and may have been made by different plans on different heaps.
-/

/-- What a run makes shows these first steps, whatever bound on nesting is needed to make it and to
find them. -/
def Run.Shows (routines : ρ → Plan α ε ρ) (heap : Heap α ε ρ)
    (run : Handlers α ε ρ → Run α ε ρ (Stream α)) (count : Nat) (steps : Steps α) : Prop :=
  ∃ bound made after, run (handlers routines bound) heap = .ok made after ∧
    made.Shows routines after count steps

/-- Of two ways of showing steps one shows the first ones, so many or fewer, just where the other
shows the same. -/
def Steps.Alike (count : Nat) (ones others : Nat → Steps α → Prop) : Prop :=
  ∀ fewer < count, ∀ steps, ones (fewer + 1) steps ↔ others (fewer + 1) steps

namespace Stream

/-- The stream so many steps along a stream. Each step forces one cell. -/
def advance (handlers : Handlers α ε ρ) : Nat → Stream α → Run α ε ρ (Stream α)
  | 0, stream => pure stream
  | count + 1, stream => do
    let next ← stream.step handlers
    advance handlers count next

/-- Under every bound that is large enough an iterator gives the values among the steps in their
order, as many as it is asked for; it may be asked for more only if the end is among the steps. -/
def Draws (routines : ρ → Plan α ε ρ) (heap : Heap α ε ρ) (stream : Stream α)
    (steps : Steps α) : Prop :=
  ∃ enough, ∀ bound, enough ≤ bound → ∀ number,
    number ≤ steps.values.length ∨ .finish ∈ steps →
      (Iterator.take (handlers routines bound) bound number ⟨stream⟩ heap).outcome =
        .ok (steps.values.take number)

end Stream

end Relational
