import Relational.Term

/-!
# Where two terms differ

Two terms are compared as they stand, without a look at bindings, from left to right and down
to the first place where they differ. What has been compared before that place is equal and
needs no further thought; what comes after it is left as equations, so no part is compared
twice.

A term that is put into several places is kept once, so the two sides of a comparison are often
one and the same object, and a term that is built up by doubling is small in memory and huge to
walk over. `Term.locate` finds the same as `Term.differences`, but it does not look into one object
on both sides where payloads are known to be equal to themselves: then nothing differs from itself
(`Term.differences_self`). Payloads need not be so. A floating point number that is none differs
from itself, and so do the terms it stands in and the variables that may be bound to such a term.
-/
namespace Relational

universe u v

namespace Unification

variable {A : Type u}

/-- Two terms that are to become equal. -/
structure Equation (A : Type u) where
  /-- The left side. -/
  left : Term A
  /-- The right side. -/
  right : Term A
  /-- The bindings crossed on the way down to the left side. -/
  crossed : Nat

/-- Equations that are put in front of others. -/
abbrev Front (A : Type u) := List (Equation A) → List (Equation A)

/-- The equations between arguments, in order. -/
def between (crossed : Nat) : List (Term A) → List (Term A) → Front A
  | left :: lefts, right :: rights, rest =>
    ⟨left, right, crossed⟩ :: between crossed lefts rights rest
  | _, _, rest => rest

end Unification

/-- It is known of these payloads that they are equal to themselves. -/
instance decidableReflBEq {A : Type u} [BEq A] [ReflBEq A] : Decidable (ReflBEq A) :=
  .isTrue inferInstance

/-- It is known of floating point numbers that not all are equal to themselves. -/
instance decidableReflBEqFloat : Decidable (ReflBEq Float) := .isFalse fun reflexive =>
  absurd (reflexive.rfl : (0.0 / 0.0 : Float) == 0.0 / 0.0) (by decide)

/-- What is found out about two things, at once if they are one object and it is known that nothing
can be found out about one thing. -/
def unlessOne {α : Type u} {β : Type v} (left right : α) (find : Unit → Option β) (known : Bool)
    (nothing : known = true → left = right → find () = none) : Option β :=
  let found := Thunk.mk find
  if same : known = true then
    if withPtrEq left right (fun _ => found.get.isNone) (fun one => by
      show (find ()).isNone = true
      rw [nothing same one]
      rfl)
    then none else found.get
  else found.get

/-- The look at objects changes nothing. -/
theorem unlessOne_eq {α : Type u} {β : Type v} (left right : α) (find : Unit → Option β)
    (known : Bool) (nothing : known = true → left = right → find () = none) :
    unlessOne left right find known nothing = find () := by
  cases known with
  | true =>
    show (if (find ()).isNone = true then none else find ()) = find ()
    cases find () <;> rfl
  | false => rfl

namespace Term

open Unification

variable {A : Type u}

mutual

/-- The first place where two terms differ, and in front of the rest the arguments to the right
of the way to that place; nothing if the terms are equal, whatever is bound. -/
def differences [BEq A] [Decidable (ReflBEq A)] (crossed : Nat) :
    Term A → Term A → Option (Front A)
  | .var left, .var right =>
    if left == right ∧ ReflBEq A then none else some (⟨.var left, .var right, crossed⟩ :: ·)
  | .atom left, .atom right =>
    if left == right then none else some (⟨.atom left, .atom right, crossed⟩ :: ·)
  | .op left lefts, .op right rights =>
    if left = right then
      if lefts.length = rights.length then differencesAll crossed lefts rights
      else some (⟨.op left lefts, .op right rights, crossed⟩ :: ·)
    else some (⟨.op left lefts, .op right rights, crossed⟩ :: ·)
  | .var left, right => some (⟨.var left, right, crossed⟩ :: ·)
  | .atom left, right => some (⟨.atom left, right, crossed⟩ :: ·)
  | .op left lefts, right => some (⟨.op left lefts, right, crossed⟩ :: ·)

/-- The first place where some arguments differ, and what is to the right of it. -/
def differencesAll [BEq A] [Decidable (ReflBEq A)] (crossed : Nat) :
    List (Term A) → List (Term A) → Option (Front A)
  | left :: lefts, right :: rights =>
    match differences crossed left right with
    | none => differencesAll crossed lefts rights
    | some front => some fun rest => front (between crossed lefts rights rest)
  | _, _ => none

end

/-- Arguments do not differ from themselves if none of them does. -/
theorem differencesAll_self [BEq A] [Decidable (ReflBEq A)] {crossed : Nat}
    {arguments : List (Term A)}
    (each : ∀ argument ∈ arguments, differences crossed argument argument = none) :
    differencesAll crossed arguments arguments = none := by
  induction arguments with
  | nil => simp [differencesAll]
  | cons argument arguments ih =>
    simp only [differencesAll, each argument (List.mem_cons_self ..)]
    exact ih fun other member => each other (List.mem_cons_of_mem _ member)

/-- No term differs from itself. -/
theorem differences_self [BEq A] [ReflBEq A] [Decidable (ReflBEq A)] (crossed : Nat)
    (term : Term A) : differences crossed term term = none := by
  induction term using induct with
  | var index => rw [differences, if_pos ⟨BEq.rfl, inferInstance⟩]
  | atom payload => rw [differences, if_pos BEq.rfl]
  | op symbol arguments each =>
    rw [differences, if_pos rfl, if_pos rfl, differencesAll_self each]

/-- The left sides of the equations between arguments are arguments. -/
theorem mem_between {crossed : Nat} {lefts rights : List (Term A)} {rest : List (Equation A)}
    {equation : Equation A} (member : equation ∈ between crossed lefts rights rest) :
    equation ∈ rest ∨ equation.left ∈ lefts ∧ equation.crossed = crossed := by
  fun_induction between crossed lefts rights rest with
  | case1 left lefts right rights rest ih =>
    cases member with
    | head => simp
    | tail _ later =>
      cases ih later with
      | inl there => exact .inl there
      | inr there => exact .inr ⟨List.mem_cons_of_mem _ there.1, there.2⟩
  | case2 => exact .inl member

/-- What holds of some arguments, and is passed on to what is found in each of them, holds of
what is found in all of them. -/
theorem mem_differencesAll [BEq A] [Decidable (ReflBEq A)] {crossed : Nat}
    {lefts rights : List (Term A)} {property : Term A → Prop}
    (each : ∀ left ∈ lefts, ∀ (right : Term A) (front : Front A) (rest : List (Equation A))
      (equation : Equation A), differences crossed left right = some front →
        equation ∈ front rest →
          equation ∈ rest ∨ property equation.left ∧ equation.crossed = crossed)
    (within : ∀ left ∈ lefts, property left)
    {front : Front A} (found : differencesAll crossed lefts rights = some front)
    {rest : List (Equation A)} {equation : Equation A} (member : equation ∈ front rest) :
    equation ∈ rest ∨ property equation.left ∧ equation.crossed = crossed := by
  induction lefts generalizing rights with
  | nil => simp [differencesAll] at found
  | cons left lefts ih =>
    cases rights with
    | nil => simp [differencesAll] at found
    | cons right rights =>
      simp only [differencesAll] at found
      split at found
      · exact ih (fun other member => each other (List.mem_cons_of_mem _ member))
          (fun other member => within other (List.mem_cons_of_mem _ member)) found
      · next inner first =>
        injection found with found
        subst found
        cases each left (List.mem_cons_self ..) right inner _ equation first member with
        | inr here => exact .inr here
        | inl later =>
          cases mem_between later with
          | inl there => exact .inl there
          | inr there =>
            exact .inr ⟨within _ (List.mem_cons_of_mem _ there.1), there.2⟩

/-- Where two terms differ at once, only the equation between them is found. -/
theorem mem_here {crossed : Nat} {left right : Term A} {property : Term A → Prop}
    (holds : property left) {front : Front A}
    (found : some (⟨left, right, crossed⟩ :: ·) = some front) {rest : List (Equation A)}
    {equation : Equation A} (member : equation ∈ front rest) :
    equation ∈ rest ∨ property equation.left ∧ equation.crossed = crossed := by
  injection found with found
  subst found
  cases member with
  | head => exact .inr ⟨holds, rfl⟩
  | tail _ later => exact .inl later

/-- What holds of a term and of every argument of an operation of which it holds, holds of what
is found in the term. -/
theorem mem_differences [BEq A] [Decidable (ReflBEq A)] {crossed : Nat} {left right : Term A}
    {property : Term A → Prop}
    (down : ∀ symbol arguments, property (.op symbol arguments) →
      ∀ argument ∈ arguments, property argument)
    (holds : property left) {front : Front A}
    (found : differences crossed left right = some front) {rest : List (Equation A)}
    {equation : Equation A} (member : equation ∈ front rest) :
    equation ∈ rest ∨ property equation.left ∧ equation.crossed = crossed := by
  induction left using induct generalizing right front rest equation with
  | var index =>
    cases right with
    | var other =>
      simp only [differences] at found
      split at found
      · simp at found
      · exact mem_here holds found member
    | atom => exact mem_here holds found member
    | op => exact mem_here holds found member
  | atom payload =>
    cases right with
    | var => exact mem_here holds found member
    | atom other =>
      simp only [differences] at found
      split at found
      · simp at found
      · exact mem_here holds found member
    | op => exact mem_here holds found member
  | op symbol lefts each =>
    cases right with
    | var => exact mem_here holds found member
    | atom => exact mem_here holds found member
    | op other rights =>
      have within := down symbol lefts holds
      simp only [differences] at found
      split at found
      · split at found
        · exact mem_differencesAll
            (fun left inside right front rest equation found member =>
              each left inside (within left inside) found member) within found member
        · exact mem_here holds found member
      · exact mem_here holds found member

mutual

/-- The first place where two terms differ, found without a look into one object on both sides if
payloads are known to be equal to themselves. -/
def locate [BEq A] [Decidable (ReflBEq A)] (crossed : Nat) :
    (left right : Term A) → { found : Option (Front A) // found = differences crossed left right }
  | .var _, .var _ => ⟨_, rfl⟩
  | .atom _, .atom _ => ⟨_, rfl⟩
  | .op left lefts, .op right rights =>
    ⟨if left = right then
      unlessOne lefts rights
        (fun _ =>
          if lefts.length = rights.length then (locateAll crossed lefts rights).1
          else some (⟨.op left lefts, .op right rights, crossed⟩ :: ·))
        (decide (ReflBEq A))
        (fun known one => by
          have : ReflBEq A := of_decide_eq_true known
          rw [(locateAll crossed lefts rights).2, one, if_pos rfl]
          exact differencesAll_self fun argument _ => differences_self crossed argument)
    else some (⟨.op left lefts, .op right rights, crossed⟩ :: ·), by
      rw [unlessOne_eq, (locateAll crossed lefts rights).2, differences]⟩
  | .var _, .atom _ => ⟨_, rfl⟩
  | .var _, .op .. => ⟨_, rfl⟩
  | .atom _, .var _ => ⟨_, rfl⟩
  | .atom _, .op .. => ⟨_, rfl⟩
  | .op .., .var _ => ⟨_, rfl⟩
  | .op .., .atom _ => ⟨_, rfl⟩

/-- The first place where some arguments differ. -/
def locateAll [BEq A] [Decidable (ReflBEq A)] (crossed : Nat) : (lefts rights : List (Term A)) →
    { found : Option (Front A) // found = differencesAll crossed lefts rights }
  | left :: lefts, right :: rights =>
    ⟨match (locate crossed left right).1 with
    | none => (locateAll crossed lefts rights).1
    | some front => some fun rest => front (between crossed lefts rights rest), by
      rw [(locate crossed left right).2, (locateAll crossed lefts rights).2, differencesAll]⟩
  | [], _ => ⟨none, by simp [differencesAll]⟩
  | _ :: _, [] => ⟨none, by simp [differencesAll]⟩

end

end Term

end Relational
