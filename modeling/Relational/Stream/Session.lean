import Relational.Stream.Machine

/-!
# Sessions

A session holds streams and iterators on one heap and carries out actions of any number of
consumers in any order. Streams held in several places share their cells. An action that is
given up makes nothing; an iterator whose pull is given up is left empty.
-/
namespace Relational

variable {α ε ρ : Type}

/-- What a consumer may do. Streams and iterators are numbered in the order in which they were
made. -/
inductive Action (α ε ρ : Type) where
  /-- Makes a stream by a plan that may refer to every stream made before, by its number. -/
  | make (plan : Plan α ε ρ)
  /-- Makes the stream one step along a stream. -/
  | force (stream : Nat)
  /-- Empties the place of a stream. -/
  | drop (stream : Nat)
  /-- Makes an iterator at the front of a stream. -/
  | iterate (stream : Nat)
  /-- Pulls the next value of an iterator. -/
  | pull (iterator : Nat)

/-- What an action comes to. -/
inductive Response (α : Type) where
  /-- A stream was made. -/
  | stream (number : Nat) (made : Stream α)
  /-- The place of a stream was emptied. -/
  | dropped (number : Nat)
  /-- An iterator was made. -/
  | iterator (number : Nat) (made : Stream.Iterator α)
  /-- The next value was pulled, if there was one; the iterator as it is now. -/
  | pulled (value : Option α) (left : Stream.Iterator α)
  /-- The action was given up. -/
  | stopped (stop : Stop)
  deriving DecidableEq

/-- Streams and iterators on one heap. -/
structure Session (α ε ρ : Type) where
  /-- The streams by their numbers. -/
  streams : Array (Stream α)
  /-- The iterators by their numbers. -/
  iterators : Array (Stream.Iterator α)
  /-- Their cells. -/
  heap : Heap α ε ρ

namespace Session

/-- The session without streams. -/
def empty : Session α ε ρ := ⟨#[], #[], .empty⟩

/-- A stream by its number; where there is none, the empty stream. -/
def stream (session : Session α ε ρ) (number : Nat) : Stream α :=
  session.streams.getD number .empty

/-- An iterator by its number; where there is none, one that has come to its end. -/
def iterator (session : Session α ε ρ) (number : Nat) : Stream.Iterator α :=
  session.iterators.getD number ⟨.empty⟩

/-- Runs the making of a stream and keeps the stream. -/
def keep (session : Session α ε ρ) (run : Run α ε ρ (Stream α)) :
    Response α × Session α ε ρ :=
  let { streams, iterators, heap } := session
  match run heap with
  | .ok made heap => (.stream streams.size made, ⟨streams.push made, iterators, heap⟩)
  | .error stop heap => (.stopped stop, ⟨streams, iterators, heap⟩)

/-- Carries out an action, where cells are forced and routines called by handlers and a pull goes
over at most so many suspensions. -/
def performWith (handlers : Handlers α ε ρ) (bound : Nat) (session : Session α ε ρ) :
    Action α ε ρ → Response α × Session α ε ρ
  | .make plan => session.keep (plan.eval handlers session.streams.toList)
  | .force number => session.keep ((session.stream number).step handlers)
  | .drop number =>
    (.dropped number, { session with streams := session.streams.setIfInBounds number .empty })
  | .iterate number =>
    let made : Stream.Iterator α := ⟨session.stream number⟩
    (.iterator session.iterators.size made,
      { session with iterators := session.iterators.push made })
  | .pull number =>
    let { streams, iterators, heap } := session
    let pull := (iterators.getD number ⟨.empty⟩).next handlers bound heap
    let after := ⟨streams, iterators.setIfInBounds number pull.iterator, pull.heap⟩
    match pull.outcome with
    | .ok value => (.pulled value pull.iterator, after)
    | .error stop => (.stopped stop, after)

/-- Carries out actions one after another by handlers. -/
def performAllWith (handlers : Handlers α ε ρ) (bound : Nat) :
    List (Action α ε ρ) → Session α ε ρ → List (Response α) × Session α ε ρ
  | [], session => ([], session)
  | action :: actions, session =>
    let (response, session) := session.performWith handlers bound action
    let (responses, session) := performAllWith handlers bound actions session
    (response :: responses, session)

/-- Carries out an action, with a bound on how deeply forcing is nested and how far a pull
goes. -/
def perform (routines : ρ → Plan α ε ρ) (bound : Nat) (session : Session α ε ρ)
    (action : Action α ε ρ) : Response α × Session α ε ρ :=
  session.performWith (handlers routines bound) bound action

/-- Carries out actions one after another. -/
def performAll (routines : ρ → Plan α ε ρ) (bound : Nat) (actions : List (Action α ε ρ))
    (session : Session α ε ρ) : List (Response α) × Session α ε ρ :=
  performAllWith (handlers routines bound) bound actions session

end Session

end Relational
