import Mathlib.Data.List.Forall2
import Mathlib.Logic.Relation
import Relational.Unification.Basic

/-!
# Loops

Walking, the occurs check and unification are loops: a pass goes on from one state to the next or
comes to a result, and resolving a term is a recursion. Nothing in them says how long they may go
on. A pass uses the results of the loops inside it. Where both sides of a pair are one operation
that is kept once, unification may leave the pair at once; whether they are is known to the
machine and not to the terms, so a pass is a relation.
-/
namespace Relational

universe u v

/-- Every run of a loop from a state comes to an end with this result: no pass is missing, none
comes to another result, and from every state it goes on to every run ends so. -/
inductive Loop.Ends {S : Type u} {R : Type v} (pass : S → S ⊕ R → Prop) (result : R) :
    S → Prop where
  /-- What holds of every next pass holds of the state. -/
  | intro {state : S} (going : ∃ outcome, pass state outcome)
    (stop : ∀ other, pass state (.inr other) → other = result)
    (again : ∀ next, pass state (.inl next) → Ends pass result next) : Ends pass result state

variable {A : Type u}

namespace Substitution

/-- A pass of walking goes on to the term that a bound variable is bound to. -/
def walkPass (bindings : Substitution A) (current : Term A) : Term A ⊕ Term A :=
  match bindings.binding? current with
  | some next => .inl next
  | none => .inr current

/-- A pass of the occurs check takes the first of the pending terms. The arguments of an operation
come before the other terms, the last one first. -/
def occursPass (bindings : Substitution A) (index : UInt64) :
    List (Term A) → List (Term A) ⊕ Bool
  | [] => .inr false
  | next :: pending =>
    match bindings.walk next with
    | .var other => if other == index then .inr true else .inl pending
    | .atom _ => .inl pending
    | .op _ arguments => .inl (arguments.reverse ++ pending)

/-- The recursion that resolves a term comes to an end with a result. -/
inductive Reifies (bindings : Substitution A) : Term A → Term A → Prop where
  /-- A variable without a binding stays. -/
  | var {term : Term A} {index : UInt64} (walked : bindings.walk term = .var index) :
    Reifies bindings term (.var index)
  /-- An atom stays. -/
  | atom {term : Term A} {payload : A} (walked : bindings.walk term = .atom payload) :
    Reifies bindings term (.atom payload)
  /-- The arguments of an operation are resolved. -/
  | op {term : Term A} {symbol : String} {arguments results : List (Term A)}
    (walked : bindings.walk term = .op symbol arguments)
    (each : List.Forall₂ (Reifies bindings) arguments results) :
    Reifies bindings term (.op symbol results)

end Substitution

namespace Unification

/-- A state of the loop of unification. -/
structure Task (A : Type u) where
  /-- The bindings so far. -/
  bindings : Substitution A
  /-- The pairs of terms that are to become equal, the next one first. -/
  pending : List (Term A × Term A)

namespace Task

/-- Binds a variable and goes on, unless the variable appears in the term. -/
def bind (bindings : Substitution A) (index : UInt64) (term : Term A)
    (pending : List (Term A × Term A)) : Task A ⊕ Except Clash (Substitution A) :=
  if bindings.occurs index term then .inr (.error (.occursCheck index))
  else .inl ⟨bindings.insert index term, pending⟩

/-- Takes a pair apart, given where walking from its sides ends. The pairs of arguments of two
operations come before the other pairs, the leftmost one first. -/
def apart [BEq A] (bindings : Substitution A) (left right : Term A)
    (pending : List (Term A × Term A)) : Task A ⊕ Except Clash (Substitution A) :=
  match left, right with
  | .var left, .var right =>
    if left == right then .inl ⟨bindings, pending⟩
    else bind bindings left (.var right) pending
  | .var index, other => bind bindings index other pending
  | other, .var index => bind bindings index other pending
  | .atom left, .atom right =>
    if left == right then .inl ⟨bindings, pending⟩ else .inr (.error .atoms)
  | .op left lefts, .op right rights =>
    if left ≠ right then .inr (.error (.symbols left right))
    else if lefts.length ≠ rights.length then
      .inr (.error (.arities left lefts.length rights.length))
    else .inl ⟨bindings, lefts.zip rights ++ pending⟩
  | .atom _, .op .. => .inr (.error .kinds)
  | .op .., .atom _ => .inr (.error .kinds)

/-- A pass of unification takes the next pair apart. -/
def pass [BEq A] : Task A → Task A ⊕ Except Clash (Substitution A)
  | ⟨bindings, []⟩ => .inr (.ok bindings)
  | ⟨bindings, (left, right) :: pending⟩ =>
    apart bindings (bindings.walk left) (bindings.walk right) pending

/-- What a pass of unification may come to. -/
inductive Passes [BEq A] : Task A → Task A ⊕ Except Clash (Substitution A) → Prop where
  /-- It looks at the next pair. -/
  | look (task : Task A) : Passes task task.pass
  /-- It leaves out a pair of one operation with itself. -/
  | one {bindings : Substitution A} {left right : Term A} {symbol : String}
    {arguments : List (Term A)} {pending : List (Term A × Term A)}
    (leftWalked : bindings.walk left = .op symbol arguments)
    (rightWalked : bindings.walk right = .op symbol arguments) :
    Passes ⟨bindings, (left, right) :: pending⟩ (.inl ⟨bindings, pending⟩)

end Task

end Unification

/-- Under some bindings walking and the occurs check come to an end, whatever terms they are given,
with the results of `walk` and `occurs`. -/
structure Substitution.ChecksEnd (bindings : Substitution A) : Prop where
  /-- Walking ends. -/
  walk : ∀ term, Loop.Ends (fun state outcome => bindings.walkPass state = outcome)
    (bindings.walk term) term
  /-- The occurs check ends. -/
  occurs : ∀ index term, Loop.Ends (fun state outcome => bindings.occursPass index state = outcome)
    (bindings.occurs index term) [term]

/-- Under some bindings all loops of unification and the recursion of resolving come to an end,
whatever terms they are given, with the results of `walk`, `occurs`, `reify` and `unify`. -/
structure Substitution.LoopsEnd [BEq A] [Decidable (ReflBEq A)] (bindings : Substitution A) : Prop
    extends bindings.ChecksEnd where
  /-- Resolving ends. -/
  reify : ∀ term, bindings.Reifies term (bindings.reify term)
  /-- Unification ends, in success and in every failure. -/
  unify : ∀ left right, Loop.Ends Unification.Task.Passes (Relational.unify left right bindings)
    ⟨bindings, [(left, right)]⟩
  /-- The loops inside unification end under all the bindings that it comes to. -/
  inside : ∀ left right task,
    Relation.ReflTransGen (fun before after : Unification.Task A => before.Passes (.inl after))
      ⟨bindings, [(left, right)]⟩ task → task.bindings.ChecksEnd

/-!
## Unification by recursion

The textbook definition: resolve both sides at their heads; bind a variable after the occurs
check, the left one if both sides are variables; compare atoms; compare operations by symbol,
then by number of arguments, then argument by argument from left to right under the bindings
made so far. The recursion is as deep as the terms resolve, which a bound has to exceed.
-/

/-- The bindings with one more, unless the variable appears in the term. -/
def Substitution.bindChecked? (bindings : Substitution A) (index : UInt64) (term : Term A) :
    Option (Except Clash (Substitution A)) :=
  (bindings.occurs? index term).map fun
    | true => .error (.occursCheck index)
    | false => .ok (bindings.insert index term)

mutual

/-- The extension of some bindings that makes two terms equal, or the first clash. -/
def unifyRecursive? [BEq A] :
    Nat → Term A → Term A → Substitution A → Option (Except Clash (Substitution A))
  | 0, _, _, _ => none
  | bound + 1, left, right, bindings => do
    match ← bindings.walk? left, ← bindings.walk? right with
    | .var left, .var right =>
      if left == right then some (.ok bindings) else bindings.bindChecked? left (.var right)
    | .var left, right => bindings.bindChecked? left right
    | left, .var right => bindings.bindChecked? right left
    | .atom left, .atom right =>
      some (if left == right then .ok bindings else .error .atoms)
    | .op left lefts, .op right rights =>
      if left ≠ right then some (.error (.symbols left right))
      else if lefts.length ≠ rights.length then
        some (.error (.arities left lefts.length rights.length))
      else unifyAllRecursive? bound lefts rights bindings
    | .atom _, .op .. => some (.error .kinds)
    | .op .., .atom _ => some (.error .kinds)

/-- The extension of some bindings that makes terms equal pair by pair, or the first clash. -/
def unifyAllRecursive? [BEq A] :
    Nat → List (Term A) → List (Term A) → Substitution A →
      Option (Except Clash (Substitution A))
  | bound, left :: lefts, right :: rights, bindings => do
    match ← unifyRecursive? bound left right bindings with
    | .error reason => some (.error reason)
    | .ok bindings => unifyAllRecursive? bound lefts rights bindings
  | _, _, _, bindings => some (.ok bindings)

end

end Relational
