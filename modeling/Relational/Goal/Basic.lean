import Relational.Text.State

/-!
# Goals

A goal is a relation between terms: an equation, a conjunction, a disjunction, a goal about
new variables, or a goal that is only built when its answers are asked for. Builders of goals
may leave notes, which are reported whenever the goal is built. Delayed goals are named, and a
`Program` says what the names stand for; a name may stand for a goal in which it appears
again, so relations may be recursive.
-/
namespace Relational

/-- A relation between terms, with named delayed goals. -/
inductive Goal (A δ : Type) where
  /-- Two terms are equal. -/
  | unify (left right : Term A)
  /-- Every one of some goals holds. -/
  | conjunction (goals : List (Goal A δ))
  /-- At least one of some goals holds. -/
  | disjunction (goals : List (Goal A δ))
  /-- The goal built for some new variables holds; the builder leaves notes. -/
  | fresh (count : UInt64) (notes : List (Term A) → List String)
      (build : List (Term A) → Goal A δ)
  /-- The goal that a name stands for holds. -/
  | delay (name : δ)

/-- A goal together with the notes left in building it. -/
structure Built (A δ : Type) where
  /-- The notes, first things first. -/
  notes : List String
  /-- The goal. -/
  goal : Goal A δ

instance {A δ : Type} : Inhabited (Built A δ) := ⟨⟨[], .conjunction []⟩⟩

/-- What the names of delayed goals stand for. -/
abbrev Program (A δ : Type) := δ → Built A δ

namespace Goal

variable {A δ : Type}

instance : Inhabited (Goal A δ) := ⟨conjunction []⟩

/-- The goal that always holds. -/
def succeed : Goal A δ := conjunction []

/-- The goal that never holds. -/
def fail : Goal A δ := disjunction []

mutual

/-- The structure text of a goal, given that of payloads. What is not built yet is not
shown. -/
def layout (payload : A → Layout) : Goal A δ → Layout
  | unify left right => .tuple "Unify" [left.layout payload, right.layout payload]
  | conjunction goals => .tuple "Conjunction" [.list (layoutAll payload goals)]
  | disjunction goals => .tuple "Disjunction" [.list (layoutAll payload goals)]
  | fresh count _ _ => .leaf ("Fresh(" ++ toString count.toNat ++ ", ..)")
  | delay _ => .leaf "Delay(..)"

/-- The structure texts of some goals. -/
def layoutAll (payload : A → Layout) : List (Goal A δ) → List Layout
  | [] => []
  | goal :: goals => layout payload goal :: layoutAll payload goals

end

end Goal

end Relational
