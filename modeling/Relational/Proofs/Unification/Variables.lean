import Relational.Goal.Meaning
import Relational.Proofs.IntMap.Contents
import Relational.Proofs.Term.Equality

/-!
# Unification adds no variables

Whatever bindings and terms are given, acyclic or not: all variables of the bindings that
unification returns are variables of what it is given. It resolves terms along bindings, takes
them apart and binds variables to them, and each of these leaves the variables inside where they
were inside before.
-/
namespace Relational

variable {A : Type} {inside : UInt64 → Prop} {bindings : Substitution A}

namespace Substitution

/-- Without bindings all of them are inside. -/
theorem within_empty : Substitution.Within inside (IntMap.empty : Substitution A) where
  key found := nomatch (IntMap.get?_empty _).symm.trans found
  value found := nomatch (IntMap.get?_empty _).symm.trans found

/-- What a term is bound to is inside. -/
theorem Within.binding? (within : bindings.Within inside) {term other : Term A}
    (bound : bindings.binding? term = some other) : other.Within inside := by
  cases term with
  | var index => exact within.value bound
  | atom | op => exact nomatch bound

/-- Where a term leads along bindings is inside if all of them are. -/
theorem Within.follow? (within : bindings.Within inside) {limit : Nat} {term stop : Term A}
    (start : term.Within inside) (followed : bindings.follow? limit term = some stop) :
    stop.Within inside := by
  induction limit generalizing term with
  | zero =>
    unfold Substitution.follow? at followed
    cases bound : bindings.binding? term with
    | none =>
      rw [bound] at followed
      cases followed
      exact start
    | some other =>
      rw [bound] at followed
      cases followed
  | succ limit further =>
    unfold Substitution.follow? at followed
    cases bound : bindings.binding? term with
    | none =>
      rw [bound] at followed
      cases followed
      exact start
    | some other =>
      rw [bound] at followed
      exact further (within.binding? bound) followed

/-- A new binding of a variable inside to a term inside keeps bindings inside. -/
theorem Within.insert (within : bindings.Within inside) {index : UInt64} {term : Term A}
    (here : inside index) (start : term.Within inside) :
    Within inside (IntMap.insert bindings index term) := by
  have each : ∀ {other : UInt64} {bound : Term A},
      (IntMap.insert bindings index term).get? other = some bound →
        inside other ∧ bound.Within inside := by
    intro other bound found
    rw [IntMap.get?_insert] at found
    split at found
    · next same =>
      cases found
      exact ⟨same ▸ here, start⟩
    · exact ⟨within.key found, within.value found⟩
  exact ⟨fun found => (each found).1, fun found => (each found).2⟩

end Substitution

namespace Unification

/-- Both sides of an equation are inside. -/
def Equation.Within (inside : UInt64 → Prop) (equation : Equation A) : Prop :=
  equation.left.Within inside ∧ equation.right.Within inside

end Unification

namespace Term

open Unification

/-- The arguments of an operation inside are inside. -/
theorem Within.argument {symbol : String} {arguments : List (Term A)}
    (within : (op symbol arguments).Within inside) :
    ∀ argument ∈ arguments, argument.Within inside :=
  fun _ member index appears => within index (vars_subset_of_mem member appears)

variable {crossed : Nat}

/-- Equations between arguments inside are inside. -/
theorem within_between {lefts rights : List (Term A)}
    (withinLeft : ∀ left ∈ lefts, left.Within inside)
    (withinRight : ∀ right ∈ rights, right.Within inside) {rest : List (Equation A)}
    (others : ∀ equation ∈ rest, equation.Within inside) :
    ∀ equation ∈ between crossed lefts rights rest, equation.Within inside := by
  fun_induction between crossed lefts rights rest with
  | case1 left lefts right rights rest later =>
    have behind := later (fun other member => withinLeft other (List.mem_cons_of_mem _ member))
      (fun other member => withinRight other (List.mem_cons_of_mem _ member)) others
    intro equation member
    rcases List.mem_cons.mp member with rfl | member
    · exact ⟨withinLeft left (List.mem_cons_self ..), withinRight right (List.mem_cons_self ..)⟩
    · exact behind equation member
  | case2 => exact others

variable [BEq A] [Decidable (ReflBEq A)]

/-- Two terms do not differ, or they differ at once, or they differ where their arguments do. -/
theorem differences_cases (crossed : Nat) (left right : Term A) :
    left.differences crossed right = none ∨
      left.differences crossed right = some (⟨left, right, crossed⟩ :: ·) ∨
        ∃ symbol lefts rights, left = op symbol lefts ∧ right = op symbol rights ∧
          left.differences crossed right = differencesAll crossed lefts rights := by
  cases left with
  | var index =>
    cases right with
    | var other =>
      rw [differences]
      split
      · exact .inl rfl
      · exact .inr (.inl rfl)
    | atom | op => exact .inr (.inl rfl)
  | atom payload =>
    cases right with
    | atom other =>
      rw [differences]
      split
      · exact .inl rfl
      · exact .inr (.inl rfl)
    | var | op => exact .inr (.inl rfl)
  | op symbol lefts =>
    cases right with
    | op other rights =>
      rw [differences]
      split
      · next same =>
        split
        · exact .inr (.inr ⟨symbol, lefts, rights, rfl, by rw [same], rfl⟩)
        · exact .inr (.inl rfl)
      · exact .inr (.inl rfl)
    | var | atom => exact .inr (.inl rfl)

/-- What is found between arguments inside is inside, if that holds of each of them. -/
theorem within_differencesAll {lefts rights : List (Term A)}
    (each : ∀ left ∈ lefts, ∀ (right : Term A), right.Within inside → ∀ {front : Front A},
      left.differences crossed right = some front → ∀ {rest : List (Equation A)},
        (∀ equation ∈ rest, equation.Within inside) →
          ∀ equation ∈ front rest, equation.Within inside)
    (withinLeft : ∀ left ∈ lefts, left.Within inside)
    (withinRight : ∀ right ∈ rights, right.Within inside) {front : Front A}
    (found : differencesAll crossed lefts rights = some front) {rest : List (Equation A)}
    (others : ∀ equation ∈ rest, equation.Within inside) :
    ∀ equation ∈ front rest, equation.Within inside := by
  induction lefts generalizing rights with
  | nil => simp [differencesAll] at found
  | cons left lefts later =>
    cases rights with
    | nil => simp [differencesAll] at found
    | cons right rights =>
      have laterLeft := fun other member => withinLeft other (List.mem_cons_of_mem left member)
      have laterRight := fun other member => withinRight other (List.mem_cons_of_mem right member)
      simp only [differencesAll] at found
      split at found
      · exact later (fun other member => each other (List.mem_cons_of_mem _ member)) laterLeft
          laterRight found
      · next inner first =>
        cases found
        exact each left (List.mem_cons_self ..) right (withinRight right (List.mem_cons_self ..))
          first (within_between laterLeft laterRight others)

/-- What is found between two terms inside is inside. -/
theorem within_differences {left right : Term A} (withinLeft : left.Within inside)
    (withinRight : right.Within inside) {front : Front A}
    (found : left.differences crossed right = some front) {rest : List (Equation A)}
    (others : ∀ equation ∈ rest, equation.Within inside) :
    ∀ equation ∈ front rest, equation.Within inside := by
  induction left using induct generalizing right front rest with
  | var | atom =>
    rcases differences_cases crossed _ right with same | here | ⟨_, _, _, impossible, _⟩
    · exact nomatch same.symm.trans found
    · cases here.symm.trans found
      exact List.forall_mem_cons.mpr ⟨⟨withinLeft, withinRight⟩, others⟩
    · exact nomatch impossible
  | op symbol lefts each =>
    rcases differences_cases crossed (op symbol lefts) right with
      same | here | ⟨_, _, rights, whole, rfl, arguments⟩
    · exact nomatch same.symm.trans found
    · cases here.symm.trans found
      exact List.forall_mem_cons.mpr ⟨⟨withinLeft, withinRight⟩, others⟩
    · cases whole
      exact within_differencesAll
        (fun left member right withinRight front found rest others =>
          each left member (withinLeft.argument left member) withinRight found others)
        withinLeft.argument withinRight.argument (arguments.symm.trans found) others

end Term

namespace Unification

/-- What becomes of an equation is inside. -/
def Outcome.Within (inside : UInt64 → Prop) : Outcome A → Prop
  | clash _ => True
  | bound after => after.Within inside
  | reduced equations => ∀ equation ∈ equations, equation.Within inside
  | unknown => True

/-- A variable is bound inside. -/
theorem within_bind (within : bindings.Within inside) {index : UInt64} {term : Term A}
    (here : inside index) (start : term.Within inside) :
    (Unification.bind bindings index term).Within inside := by
  unfold Unification.bind
  cases bindings.occurs? index term with
  | none => trivial
  | some appears =>
    cases appears with
    | true => trivial
    | false => exact within.insert here start

variable [BEq A] [Decidable (ReflBEq A)]

/-- Two terms inside are taken apart into what is inside. -/
theorem within_settle (within : bindings.Within inside) (equation : Equation A)
    {left right : Term A} (withinLeft : left.Within inside) (withinRight : right.Within inside) :
    (equation.settle bindings left right).Within inside := by
  have nothing : ∀ item ∈ ([] : List (Equation A)), item.Within inside :=
    fun _ member => nomatch member
  unfold Equation.settle
  split
  · next leftIndex rightIndex =>
    split
    · exact nothing
    · exact within_bind within (withinLeft leftIndex (by simp)) withinRight
  · next index _ => exact within_bind within (withinLeft index (by simp)) withinRight
  · next index _ => exact within_bind within (withinRight index (by simp)) withinLeft
  · split
    · trivial
    · next crossed _ =>
      rw [(left.locate crossed right).2]
      split
      · exact nothing
      · next front found =>
        split
        · trivial
        · exact Term.within_differences withinLeft withinRight found nothing

/-- An equation inside is taken apart into what is inside. -/
theorem within_step (within : bindings.Within inside) {equation : Equation A}
    (start : equation.Within inside) : (equation.step bindings).Within inside := by
  unfold Equation.step
  split
  · next left right leftWalked rightWalked =>
    exact within_settle within equation (within.follow? start.1 leftWalked)
      (within.follow? start.2 rightWalked)
  · trivial

/-- Bindings inside that solve equations inside stay inside. -/
theorem within_solve? {pending : List (Equation A)} {after : Substitution A}
    (within : bindings.Within inside) (start : ∀ equation ∈ pending, equation.Within inside)
    (solved : solve? bindings pending = some (.ok after)) : after.Within inside := by
  induction bindings, pending using solve?.induct with
  | case1 bindings =>
    rw [solve?] at solved
    cases solved
    exact within
  | case2 bindings equation rest reason stepped =>
    rw [solve?, stepped] at solved
    exact nomatch solved
  | case3 bindings equation rest next stepped later =>
    have taken := within_step within (start equation (List.mem_cons_self ..))
    rw [stepped] at taken
    rw [solve?, stepped] at solved
    exact later taken (fun other member => start other (List.mem_cons_of_mem _ member)) solved
  | case4 bindings equation rest equations stepped later =>
    have taken := within_step within (start equation (List.mem_cons_self ..))
    rw [stepped] at taken
    rw [solve?, stepped] at solved
    refine later within (fun other member => ?_) solved
    rcases List.mem_append.mp member with new | old
    · exact taken other new
    · exact start other (List.mem_cons_of_mem _ old)
  | case5 bindings equation rest stepped =>
    rw [solve?, stepped] at solved
    exact nomatch solved

end Unification

/-- Unification of terms inside keeps bindings inside. -/
theorem Substitution.Within.unify [BEq A] [Decidable (ReflBEq A)]
    (within : bindings.Within inside) {left right : Term A} (withinLeft : left.Within inside)
    (withinRight : right.Within inside)
    {after : Substitution A} (unified : Relational.unify left right bindings = .ok after) :
    after.Within inside := by
  unfold Relational.unify at unified
  cases solved : unify? left right bindings with
  | none =>
    rw [solved] at unified
    cases unified
    exact within
  | some answer =>
    rw [solved] at unified
    cases unified
    refine Unification.within_solve? within (fun equation member => ?_) solved
    rw [List.mem_singleton.mp member]
    exact ⟨withinLeft, withinRight⟩

end Relational
