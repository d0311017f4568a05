import Relational.IntMap.Basic
import Relational.Term

/-!
# Substitutions

A substitution binds variables to terms that may themselves contain bound variables. To
resolve a term is to replace its bound variables by their terms until none is left, which
ends if no variable reaches itself through its bindings. A resolution that ends crosses each
bound variable at most once on the way to any one place, so `size` crossings suffice; the
operations with a question mark stop there and say so by `none`, and the operations without
one hide it.
-/
namespace Relational

universe u

/-- Bindings of variables. -/
abbrev Substitution (A : Type u) := IntMap (Term A)

namespace Substitution

variable {A : Type u}

/-- The term that a term is bound to, if it is a bound variable. -/
def binding? (bindings : Substitution A) : Term A → Option (Term A)
  | .var index => bindings.get? index
  | .atom _ => none
  | .op .. => none

/-- Follows bindings, at most so many, to a term that is not a bound variable. -/
def follow? (bindings : Substitution A) : Nat → Term A → Option (Term A)
  | 0, term =>
    match bindings.binding? term with
    | none => some term
    | some _ => none
  | crossings + 1, term =>
    match bindings.binding? term with
    | none => some term
    | some next => bindings.follow? crossings next

/-- Whether a variable appears in the resolved term, with at most so many crossings on the
way to any one place. -/
def occursWithin? (bindings : Substitution A) (index : UInt64) : Nat → Term A → Option Bool
  | 0, term => term.anyVar? fun other =>
    match bindings.get? other with
    | none => some (other == index)
    | some _ => none
  | crossings + 1, term => term.anyVar? fun other =>
    match bindings.get? other with
    | none => some (other == index)
    | some next => bindings.occursWithin? index crossings next

/-- The resolved term, with at most so many crossings on the way to any one place. -/
def reifyWithin? (bindings : Substitution A) : Nat → Term A → Option (Term A)
  | 0, term => term.bind? fun other =>
    match bindings.get? other with
    | none => some (.var other)
    | some _ => none
  | crossings + 1, term => term.bind? fun other =>
    match bindings.get? other with
    | none => some (.var other)
    | some next => bindings.reifyWithin? crossings next

/-- The first term along the bindings of a variable that is not a bound variable; unknown if
there is none. -/
def walk? (bindings : Substitution A) (term : Term A) : Option (Term A) :=
  bindings.follow? bindings.size term

/-- Whether a variable appears in the resolved term; unknown if resolving does not end. -/
def occurs? (bindings : Substitution A) (index : UInt64) (term : Term A) : Option Bool :=
  bindings.occursWithin? index bindings.size term

/-- The term with every bound variable replaced at any depth; unknown if resolving does not
end. -/
def reify? (bindings : Substitution A) (term : Term A) : Option (Term A) :=
  bindings.reifyWithin? bindings.size term

/-- The first term along the bindings of a variable that is not a bound variable. Any other
term is returned as it is, without a look at its arguments. -/
def walk (bindings : Substitution A) (term : Term A) : Term A :=
  (bindings.walk? term).getD term

/-- Whether a variable appears in a term, looking through bound variables. -/
def occurs (bindings : Substitution A) (index : UInt64) (term : Term A) : Bool :=
  (bindings.occurs? index term).getD false

/-- The term with every bound variable replaced at any depth. Variables without a binding
stay. -/
def reify (bindings : Substitution A) (term : Term A) : Term A :=
  (bindings.reify? term).getD term

end Substitution

/-!
## Valuations

A valuation gives every variable a term. It solves a substitution if every bound variable has
the value of the term it is bound to, and an equation if both sides have one value. Values are
compared as terms are, by the equality of their payloads. This is what substitutions and
equations mean, independently of how they are resolved.
-/

/-- A value for every variable. -/
abbrev Valuation (A : Type u) := UInt64 → Term A

namespace Valuation

variable {A : Type u}

/-- The valuation that gives some variables the values of a list, in order, and every other
variable its old value. -/
def assign (valuation : Valuation A) (indices : List UInt64) (values : List (Term A)) :
    Valuation A :=
  fun index => ((indices.zip values).lookup index).getD (valuation index)

/-- Every bound variable has the value of its term. -/
def Solves [BEq A] (valuation : Valuation A) (bindings : Substitution A) : Prop :=
  ∀ index term, bindings.get? index = some term → valuation index == term.bind valuation

/-- Two terms have one value. -/
def Equates [BEq A] (valuation : Valuation A) (left right : Term A) : Prop :=
  left.bind valuation == right.bind valuation

end Valuation

/-!
## Acyclic substitutions

One variable leads to another if the other appears in the term that the one is bound to. A
substitution is acyclic if no way of such steps comes back to where it started; then resolving
a term ends, because a way can cross each bound variable once at most.
-/

namespace Substitution

variable {A : Type u}

/-- There is a way of one or more bindings from one variable to another. -/
inductive Reaches (bindings : Substitution A) : UInt64 → UInt64 → Prop where
  /-- The other variable appears in the term that the one is bound to. -/
  | direct {start stop : UInt64} {term : Term A} (bound : bindings.get? start = some term)
    (appears : stop ∈ term.vars) : Reaches bindings start stop
  /-- One way goes on where another ends. -/
  | trans {start middle stop : UInt64} (first : Reaches bindings start middle)
    (second : Reaches bindings middle stop) : Reaches bindings start stop

/-- No variable reaches itself through its bindings. -/
def Acyclic (bindings : Substitution A) : Prop :=
  ∀ index, ¬ bindings.Reaches index index

/-- The second substitution has every binding of the first. -/
def Extends (before after : Substitution A) : Prop :=
  ∀ index term, before.get? index = some term → after.get? index = some term

/-- A substitution without bindings is acyclic. -/
theorem acyclic_empty : Acyclic (IntMap.empty : Substitution A) := by
  intro index way
  have bound_somewhere {start stop : UInt64}
      (way : Reaches (IntMap.empty : Substitution A) start stop) : False := by
    induction way with
    | direct bound => simp at bound
    | trans _ _ first _ => exact first
  exact bound_somewhere way

/-- Every substitution extends itself. -/
theorem Extends.refl (bindings : Substitution A) : bindings.Extends bindings :=
  fun _ _ bound => bound

/-- Extensions of extensions are extensions. -/
theorem Extends.trans {first second third : Substitution A} (left : first.Extends second)
    (right : second.Extends third) : first.Extends third :=
  fun index term bound => right index term (left index term bound)

end Substitution

end Relational
