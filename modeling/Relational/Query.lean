import Relational.Goal.Meaning
import Relational.Goal.Search

/-!
# Queries

A query names some new variables and asks for their values. The first variables go to the
names in order. An answer lists each name once, at the place where the name first stands; of
a name that stands there several times the last variable counts.
-/
namespace Relational

variable {A δ : Type}

/-- The values of the names of a query. -/
structure Answer (A : Type) where
  /-- Names and values in the order of the query. -/
  bindings : List (String × Term A)

namespace Answer

/-- Gives a name its value: in its place if it has one, at the end otherwise. -/
def assign (name : String) (value : Term A) : List (String × Term A) → List (String × Term A)
  | [] => [(name, value)]
  | binding :: bindings =>
    if binding.1 = name then (name, value) :: bindings
    else binding :: assign name value bindings

/-- The answer that gives names their values one after another. -/
def ofList (values : List (String × Term A)) : Answer A :=
  ⟨values.foldl (fun bindings value => assign value.1 value.2 bindings) []⟩

/-- The value of a name. -/
def get? (answer : Answer A) (name : String) : Option (Term A) :=
  (answer.bindings.find? fun binding => binding.1 == name).map (·.2)

/-- The structure text of an answer, given that of payloads. -/
def layout (payload : A → Layout) (answer : Answer A) : Layout :=
  .record "Answer" [("bindings", .map (answer.bindings.map fun binding =>
    (Layout.quoted binding.1, binding.2.layout payload)))]

end Answer

/-- Names whose values are asked for. -/
structure Query where
  /-- The names in order. -/
  names : List String

namespace Query

/-- How many names there are. -/
def count (query : Query) : UInt64 := UInt64.ofNat query.names.length

/-- The variables of the names. -/
def vars (query : Query) : List (Term A) := State.vars 0 query.count

/-- The state in which the goal of a query is to hold. -/
def start (query : Query) : State A := ⟨IntMap.empty, query.count⟩

/-- The states in which the goal built for the variables of a query holds. -/
def run [BEq A] [Decidable (ReflBEq A)] (query : Query) (build : List (Term A) → Built A δ) :
    Search A δ :=
  .report (.querying query.names)
    (.report (.allocated 0 query.count)
      ((build query.vars).calculate query.start))

/-- The answer that a state gives to a query. -/
def answer (query : Query) (state : State A) : Answer A :=
  .ofList ((query.names.zip query.vars).map fun entry => (entry.1, state.reify entry.2))

/-- The first answers of a query, at most so many, with a bound on how deeply forcing is
nested and how far a pull goes. -/
def take [BEq A] [Decidable (ReflBEq A)] (program : Program A δ) (bound count : Nat) (query : Query)
    (build : List (Term A) → Built A δ) : Except Stop (List (Answer A)) :=
  (Search.take program bound count (query.run build)).map fun states =>
    states.map query.answer

/-- The text for the answers of a query, which shows the names only. -/
def describe (query : Query) : String :=
  "Answers \x7b variables: " ++ Event.nameList query.names ++ ", .. \x7d"

/-!
## The meaning of queries

Terms satisfy a query if the goal built for its variables holds of a valuation that gives these
variables the terms in order. A query yields an answer if the answer comes after finitely many
pulls.
-/

/-- The indices of the variables of a query. -/
def indices (query : Query) : List UInt64 := State.indices 0 query.count

/-- Terms, one for each name, satisfy a query, where a valuation says what all variables stand for
that are not the query's. -/
def Satisfied [BEq A] (program : Program A δ) (query : Query)
    (build : List (Term A) → Built A δ) (others : Valuation A) (values : List (Term A)) : Prop :=
  values.length = query.names.length ∧
    (build query.vars).goal.Holds program query.indices (others.assign query.indices values)

/-- An answer is among the first answers of a query. -/
def Yields [BEq A] [Decidable (ReflBEq A)] (program : Program A δ) (query : Query)
    (build : List (Term A) → Built A δ) (answer : Answer A) : Prop :=
  ∃ bound count answers, query.take program bound count build = .ok answers ∧ answer ∈ answers

/-!
## What answers say about states

A name may stand at several places of a query. It is listed where it stands first, and its value is
that of the variable for the place where it stands last. The values of an answer are resolved
together, so a variable that one state leaves open is the same variable wherever it is left.
-/

end Query

end Relational
