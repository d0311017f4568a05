import Relational.Goal.Basic
import Relational.State

/-!
# The meaning of goals

A goal is read as logic: an equation holds of a valuation that gives both sides one value, a
conjunction and a disjunction hold as usual, a goal about new variables holds if there are
values for them, and a delayed goal holds if the goal that its name stands for does, so that
names are unfolded finitely often. New variables are any that are not in scope; where builders
only place the variables they are given, it makes no difference which ones they are.
-/
namespace Relational

/-!
## Goals that only place variables

A builder may do anything with the variables it is given. One that only places them into terms
builds goals that are alike when it is given other variables. Delayed goals may go on forever, so
being alike is said of their names: it is any relation between names that stand for goals that
are alike.
-/

variable {A δ : Type}

namespace Term

mutual

/-- Two terms are the same but for their variables, which are related one by one. -/
def Alike (related : UInt64 → UInt64 → Prop) : Term A → Term A → Prop
  | .var left, .var right => related left right
  | .atom left, .atom right => left = right
  | .op left lefts, .op right rights => left = right ∧ AlikeAll related lefts rights
  | _, _ => False

/-- Two argument lists are the same but for their variables, which are related one by one. -/
def AlikeAll (related : UInt64 → UInt64 → Prop) : List (Term A) → List (Term A) → Prop
  | [], [] => True
  | left :: lefts, right :: rights => Alike related left right ∧ AlikeAll related lefts rights
  | _, _ => False

end

end Term

namespace Goal

mutual

/-- Two goals are the same but for their variables, which are related one by one, and for the names
of delayed goals, of which `named` says when they are alike. Builders that are given variables
build goals that are alike once these are related too. -/
def Alike (named : (UInt64 → UInt64 → Prop) → δ → δ → Prop)
    (related : UInt64 → UInt64 → Prop) : Goal A δ → Goal A δ → Prop
  | .unify left right, .unify left' right' =>
    left.Alike related left' ∧ right.Alike related right'
  | .conjunction goals, .conjunction others => AlikeAll named related goals others
  | .disjunction goals, .disjunction others => AlikeAll named related goals others
  | .fresh count _ build, .fresh count' _ build' =>
    count = count' ∧ ∀ ones others : List UInt64,
      ones.length = count.toNat → others.length = count.toNat →
        Alike named (fun one other => related one other ∨ (one, other) ∈ ones.zip others)
          (build (ones.map .var)) (build' (others.map .var))
  | .delay name, .delay name' => named related name name'
  | _, _ => False

/-- Two lists of goals are the same but for their variables and for names. -/
def AlikeAll (named : (UInt64 → UInt64 → Prop) → δ → δ → Prop)
    (related : UInt64 → UInt64 → Prop) : List (Goal A δ) → List (Goal A δ) → Prop
  | [], [] => True
  | goal :: goals, other :: others =>
    Alike named related goal other ∧ AlikeAll named related goals others
  | _, _ => False

end

/-- Names that are alike stand for goals that are alike. -/
def NamesAlike (program : Program A δ)
    (named : (UInt64 → UInt64 → Prop) → δ → δ → Prop) : Prop :=
  ∀ related name other, named related name other →
    (program name).goal.Alike named related (program other).goal

/-- A goal has no variables but those of `scope`, and its builders only place these and the ones
they are given: the goal is like itself if each variable of `scope` is only related to itself. -/
def Places (program : Program A δ) (scope : List UInt64) (goal : Goal A δ) : Prop :=
  ∃ named, NamesAlike program named ∧
    goal.Alike named (fun one other => one = other ∧ one ∈ scope) goal

end Goal

/-! ## What goals mean -/

/-- A goal holds of a valuation, with the variables of `scope` in scope. -/
inductive Goal.Holds [BEq A] (program : Program A δ) :
    (scope : List UInt64) → Valuation A → Goal A δ → Prop where
  /-- Both sides have one value. -/
  | unify {scope : List UInt64} {valuation : Valuation A} {left right : Term A}
    (equated : valuation.Equates left right) : Holds program scope valuation (.unify left right)
  /-- Every goal holds. -/
  | conjunction {scope : List UInt64} {valuation : Valuation A} {goals : List (Goal A δ)}
    (each : ∀ goal ∈ goals, Holds program scope valuation goal) :
    Holds program scope valuation (.conjunction goals)
  /-- Some goal holds. -/
  | disjunction {scope : List UInt64} {valuation : Valuation A} {goals : List (Goal A δ)}
    {goal : Goal A δ} (member : goal ∈ goals) (holds : Holds program scope valuation goal) :
    Holds program scope valuation (.disjunction goals)
  /-- The goal built for the new variables holds once they have some values. -/
  | fresh {scope indices : List UInt64} {valuation : Valuation A} {count : UInt64}
    {notes : List (Term A) → List String} {build : List (Term A) → Goal A δ}
    {values : List (Term A)} (counted : indices.length = count.toNat)
    (distinct : indices.Nodup) (new : ∀ index ∈ indices, index ∉ scope)
    (enough : values.length = count.toNat)
    (holds : Holds program (indices ++ scope) (valuation.assign indices values)
      (build (indices.map .var))) :
    Holds program scope valuation (.fresh count notes build)
  /-- The goal that a name stands for holds. -/
  | delay {scope : List UInt64} {valuation : Valuation A} {name : δ}
    (holds : Holds program scope valuation (program name).goal) :
    Holds program scope valuation (.delay name)

/-!
## Scopes

Variables are handed out in the order of their indices, so whether a variable has been handed out
is said by its index and a count. A state is scoped if its bindings are about such variables only.
A goal is scoped below a count if its equations are, if builders that are given variables from
that count or a higher one on build goals that are scoped below the count after them, and if
delayed goals are. Delayed goals may go on forever, so scopes are kept by names: it is any relation
between counts and names that holds again of what the names stand for.
-/

/-- All variables of a term are inside. -/
def Term.Within (inside : UInt64 → Prop) (term : Term A) : Prop :=
  ∀ index ∈ term.vars, inside index

/-- All variables of some bindings are inside. -/
structure Substitution.Within (inside : UInt64 → Prop) (bindings : Substitution A) : Prop where
  /-- The bound ones. -/
  key : ∀ {index : UInt64} {term : Term A}, bindings.get? index = some term → inside index
  /-- Those of the terms that they are bound to. -/
  value : ∀ {index : UInt64} {term : Term A}, bindings.get? index = some term → term.Within inside

/-- A variable is among the first so many. -/
def Below (count : Nat) (index : UInt64) : Prop := index.toNat < count

/-- The bindings of a state are about variables that have been handed out. -/
def State.Scoped (state : State A) : Prop :=
  state.substitution.Within (Below state.freshCount.toNat)

namespace Goal

mutual

/-- A goal is scoped below a count, where `named` says which names are. -/
def ScopedWith (named : Nat → δ → Prop) (count : Nat) : Goal A δ → Prop
  | .unify left right => left.Within (Below count) ∧ right.Within (Below count)
  | .conjunction goals => ScopedAll named count goals
  | .disjunction goals => ScopedAll named count goals
  | .fresh more _ build => ∀ start : UInt64, count ≤ start.toNat →
    start.toNat + more.toNat < UInt64.size →
      ScopedWith named (start.toNat + more.toNat) (build (State.vars start more))
  | .delay name => named count name

/-- Some goals are scoped below a count. -/
def ScopedAll (named : Nat → δ → Prop) (count : Nat) : List (Goal A δ) → Prop
  | [] => True
  | goal :: goals => ScopedWith named count goal ∧ ScopedAll named count goals

end

/-- A goal is scoped below a count. -/
def Scoped (program : Program A δ) (count : Nat) (goal : Goal A δ) : Prop :=
  ∃ named : Nat → δ → Prop,
    (∀ count name, named count name → (program name).goal.ScopedWith named count) ∧
      goal.ScopedWith named count

/-- A variable stands in an equation of a goal or of a delayed goal in it. What builders of goals
for new variables will make of them is not known before. -/
inductive Mentions (program : Program A δ) : Goal A δ → UInt64 → Prop where
  /-- On the left side. -/
  | left {left right : Term A} {index : UInt64} (appears : index ∈ left.vars) :
    Mentions program (.unify left right) index
  /-- On the right side. -/
  | right {left right : Term A} {index : UInt64} (appears : index ∈ right.vars) :
    Mentions program (.unify left right) index
  /-- In a goal of a conjunction. -/
  | conjunction {goals : List (Goal A δ)} {goal : Goal A δ} {index : UInt64}
    (member : goal ∈ goals) (inner : Mentions program goal index) :
    Mentions program (.conjunction goals) index
  /-- In a goal of a disjunction. -/
  | disjunction {goals : List (Goal A δ)} {goal : Goal A δ} {index : UInt64}
    (member : goal ∈ goals) (inner : Mentions program goal index) :
    Mentions program (.disjunction goals) index
  /-- In the goal that a name stands for. -/
  | delay {name : δ} {index : UInt64} (inner : Mentions program (program name).goal index) :
    Mentions program (.delay name) index

end Goal

end Relational
