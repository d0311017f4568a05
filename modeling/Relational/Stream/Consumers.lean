import Relational.Stream.Session

/-!
# Consumers

Consumers take turns on the streams of one session. Some actions say which streams there are; all
the others only look into them, each through an iterator. What an iterator draws are the values
that its pulls come to, one after another.
-/
namespace Relational

variable {α ε ρ : Type}

/-- An action after which other streams are there than before. -/
def Action.makes : Action α ε ρ → Bool
  | make _ | force _ | drop _ => true
  | iterate _ | pull _ => false

/-- The action was given up. -/
def Response.isStopped : Response α → Bool
  | stopped _ => true
  | _ => false

namespace Session

/-- No action was given up. -/
def Calm (responses : List (Response α)) : Prop :=
  ∀ response ∈ responses, response.isStopped = false

instance (responses : List (Response α)) : Decidable (Calm responses) :=
  inferInstanceAs (Decidable (∀ response ∈ responses, response.isStopped = false))

/-- What the pulls of an iterator come to, first things first. -/
def drawn (iterator : Nat) (actions : List (Action α ε ρ)) (responses : List (Response α)) :
    List (Option α) :=
  (actions.zip responses).filterMap fun
    | (.pull number, .pulled value _) => if number = iterator then some value else none
    | _ => none

end Session

/-!
## Streams of sources

A source that is made a stream is asked for one item after another, and what it reports tells when
it was asked for which. Any number of consumers may share the stream. They clone it, make iterators
at the fronts of its clones, drop clones and take turns in pulling their iterators.
-/

/-- The source gives so many items and then reports its end. What it would give if it were asked for
more is left open. -/
structure Source.Ends (source : Source α ε) (length : Nat) : Prop where
  /-- There are so many items. -/
  items : ∀ position < length, (source.item position).isSome
  /-- Behind them is the end. -/
  finish : source.item length = none

/-- The source never reports its end. -/
def Source.Endless (source : Source α ε) : Prop := ∀ position, (source.item position).isSome

namespace Session

/-- How often an iterator is pulled. -/
def pulls (iterator : Nat) (actions : List (Action α ε ρ)) : Nat :=
  actions.countP fun
    | .pull number => number == iterator
    | _ => false

/-- In a session with so many streams and iterators, only the clones of a stream are looked into,
and only through iterators that were made for that, which are numbered from the first one on. -/
inductive Shares (first : Nat) :
    (clones : List Nat) → (streams iterators : Nat) → List (Action α ε ρ) → Prop where
  /-- Nothing more is done. -/
  | done (clones : List Nat) (streams iterators : Nat) : Shares first clones streams iterators []
  /-- Another clone is made. -/
  | clone {clones : List Nat} {streams iterators number : Nat} {actions : List (Action α ε ρ)}
    (is : number ∈ clones)
    (rest : Shares first (streams :: clones) (streams + 1) iterators actions) :
    Shares first clones streams iterators (.make (.ref number) :: actions)
  /-- A stream is dropped. -/
  | drop {clones : List Nat} {streams iterators : Nat} {actions : List (Action α ε ρ)}
    (number : Nat) (rest : Shares first (clones.filter (· ≠ number)) streams iterators actions) :
    Shares first clones streams iterators (.drop number :: actions)
  /-- An iterator is made at the front of a clone. -/
  | iterate {clones : List Nat} {streams iterators number : Nat} {actions : List (Action α ε ρ)}
    (is : number ∈ clones) (rest : Shares first clones streams (iterators + 1) actions) :
    Shares first clones streams iterators (.iterate number :: actions)
  /-- An iterator is pulled. -/
  | pull {clones : List Nat} {streams iterators number : Nat} {actions : List (Action α ε ρ)}
    (own : first ≤ number) (there : number < iterators)
    (rest : Shares first clones streams iterators actions) :
    Shares first clones streams iterators (.pull number :: actions)

end Session

end Relational
