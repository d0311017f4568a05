import Relational.Text.Layout
import Relational.Unification.Basic

/-!
# States of a search

A state is a point in a search: the bindings made on the way to it and the number of variable
indices handed out. Indices are handed out in order, so the next variable is always the one
whose index is that number; they are words and there is no room beyond the largest one.
-/
namespace Relational

/-- Bindings and the number of variables handed out. -/
structure State (A : Type) where
  /-- The bindings on the way here. -/
  substitution : Substitution A
  /-- How many variable indices have been handed out. -/
  freshCount : UInt64

namespace State

variable {A : Type}

/-- The state without bindings and without variables. -/
def initial : State A := ⟨IntMap.empty, 0⟩

instance : Inhabited (State A) := ⟨initial⟩

instance [BEq A] : BEq (State A) where
  beq left right :=
    left.substitution == right.substitution && left.freshCount == right.freshCount

/-- The indices from one on. -/
def indices (start count : UInt64) : List UInt64 :=
  (List.range count.toNat).map fun position => start + UInt64.ofNat position

/-- The variables from an index on. -/
def vars (start count : UInt64) : List (Term A) :=
  (List.range count.toNat).map fun position => .var (start + UInt64.ofNat position)

/-- The count after some more variables are handed out, if it is a word. -/
def advance? (start count : UInt64) : Option UInt64 :=
  if start.toNat + count.toNat < UInt64.size then some (start + count) else none

/-- New variables and the state that accounts for them, if their indices are words. -/
def allocate? (state : State A) (count : UInt64) : Option (List (Term A) × State A) :=
  (advance? state.freshCount count).map fun stop =>
    (vars state.freshCount count, { state with freshCount := stop })

/-- The first term along the bindings of a term that is not a bound variable. -/
def walk (state : State A) (term : Term A) : Term A := state.substitution.walk term

/-- The term with every bound variable replaced. -/
def reify (state : State A) (term : Term A) : Term A := state.substitution.reify term

end State

/-!
## Events of a search

A search reports what it does: the notes of those who build goals, and records of its own for
failed unifications, new variables and the start of a search. A record has a level and a line.
-/

/-- Something that a search reports. -/
inductive Event where
  /-- A note of the builder of a goal. -/
  | note (label : String)
  /-- Two terms of a goal do not unify. -/
  | unificationFailed (reason : Clash)
  /-- Variables were handed out, from one index up to but not including another. -/
  | allocated (start stop : UInt64)
  /-- A goal is searched from the initial state. -/
  | solving
  /-- A query is run over some names. -/
  | querying (names : List String)
  deriving DecidableEq

namespace Event

/-- Whether an event is a record of the search itself. -/
def isRecord : Event → Bool
  | note _ => false
  | _ => true

/-- Names as they stand in a list. -/
def nameList (names : List String) : String :=
  (Layout.list (names.map Layout.text)).flat

/-- The line that reports an event; a record starts with its level. -/
def line : Event → String
  | note label => label
  | unificationFailed reason => "TRACE Unification failed: " ++ reason.message
  | allocated start stop =>
    "TRACE Allocating fresh variables v" ++ toString start.toNat ++ "..v" ++ toString stop.toNat
  | solving => "DEBUG Solving goal from the initial state"
  | querying names => "DEBUG Running query over " ++ nameList names

end Event

end Relational
