import Relational.Goal.Basic
import Relational.State
import Relational.Stream.Machine

/-!
# Searching for the answers of goals

A goal and a state make a stream of states, the answers of the goal from that state. The
branches of a disjunction are all calculated at once, the last one first, and merged so that
every branch takes its turn; a conjunction maps the answers of each goal through the next
one. A delayed goal is a routine of the machine: it is called when its suspension is forced.

Payloads may have any equality, as for unification: floating point numbers have one under which a
number that is none differs from itself. What answers have to do with solutions, and with the order
of goals, takes an equality that is an equivalence, and the theorems that need it say so.
-/
namespace Relational

variable {A δ : Type}

/-- How a stream of answers is made: a routine is the name of a delayed goal with the state it
is to hold in. -/
abbrev Search (A δ : Type) := Plan (State A) Event (δ × State A)

/-- The sentence for indices that are no words. -/
def indexOverflow : Fault := .raised "Variable indices must fit in usize"

namespace Goal

/-- The answer of an equation. -/
def equate [BEq A] [Decidable (ReflBEq A)] (left right : Term A) (state : State A) : Search A δ :=
  match Relational.unify left right state.substitution with
  | .ok substitution => .unit { state with substitution }
  | .error reason => .report (.unificationFailed reason) .empty

mutual

/-- The answers of a goal from a state. -/
def calculate [BEq A] [Decidable (ReflBEq A)] : Goal A δ → State A → Search A δ
  | unify left right, state => equate left right state
  | conjunction goals, state => calculateAll goals (.unit state)
  | disjunction goals, state => calculateAny goals state
  | fresh count notes build, state =>
    match state.allocate? count with
    | none => .fail indexOverflow
    | some (vars, next) =>
      .report (.allocated state.freshCount next.freshCount)
        (Plan.reportAll ((notes vars).map .note) (calculate (build vars) next))
  | delay name, state => .suspend (.call (name, state))

/-- What is left of some answers by a conjunction of goals. -/
def calculateAll [BEq A] [Decidable (ReflBEq A)] : List (Goal A δ) → Search A δ → Search A δ
  | [], answers => answers
  | goal :: goals, answers => calculateAll goals (.mapcat answers fun state => calculate goal state)

/-- The answers of a disjunction of goals. Those of the later goals are made first, and no goal
is looked at before that is done. -/
def calculateAny [BEq A] [Decidable (ReflBEq A)] : List (Goal A δ) → State A → Search A δ
  | [], _ => .empty
  | goal :: goals, state =>
    .share (calculateAny goals state)
      (.merge (.computed fun _ => calculate goal state) (.ref 0))

end

/-- Where there is room for new variables the goal built for them is calculated, after the events
for handing them out and the notes of the builder. -/
theorem calculate_fresh [BEq A] [Decidable (ReflBEq A)] {count : UInt64} {state next : State A}
    {vars : List (Term A)} (allocated : state.allocate? count = some (vars, next))
    (notes : List (Term A) → List String) (build : List (Term A) → Goal A δ) :
    (fresh count notes build).calculate state =
      .report (.allocated state.freshCount next.freshCount)
        (Plan.reportAll ((notes vars).map .note) ((build vars).calculate next)) := by
  rw [calculate, allocated]

/-- The answers of a goal from the initial state. -/
def solve [BEq A] [Decidable (ReflBEq A)] (goal : Goal A δ) : Search A δ :=
  .report .solving (goal.calculate .initial)

end Goal

namespace Built

/-- The answers of a built goal from a state, after its notes. -/
def calculate [BEq A] [Decidable (ReflBEq A)] (built : Built A δ) (state : State A) : Search A δ :=
  Plan.reportAll (built.notes.map .note) (built.goal.calculate state)

end Built

/-- The routines of a program: each calculates the goal that a name stands for. -/
def Program.routines [BEq A] [Decidable (ReflBEq A)] (program : Program A δ)
    (routine : δ × State A) : Search A δ :=
  (program routine.1).calculate routine.2

/-- The cells of a search. -/
abbrev SearchHeap (A δ : Type) := Heap (State A) Event (δ × State A)

/-- The first states that a search finds, at most so many, with a bound on how deeply forcing
is nested and how far a pull goes. -/
def Search.take [BEq A] [Decidable (ReflBEq A)] (program : Program A δ) (bound count : Nat)
    (search : Search A δ) : Except Stop (List (State A)) :=
  let handlers := handlers (Program.routines program) bound
  match search.eval handlers [] .empty with
  | .error stop _ => .error stop
  | .ok stream heap => (Stream.Iterator.take handlers bound count ⟨stream⟩ heap).outcome

/-- A state is among the first answers of a goal from another state. -/
def Goal.Yields [BEq A] [Decidable (ReflBEq A)] (program : Program A δ) (goal : Goal A δ)
    (start answer : State A) : Prop :=
  ∃ bound count answers,
    Search.take program bound count (goal.calculate start) = .ok answers ∧ answer ∈ answers

end Relational
