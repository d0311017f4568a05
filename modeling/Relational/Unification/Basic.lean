import Relational.Substitution
import Relational.Unification.Difference

/-!
# Unification

Two terms are unified by working off a list of equations. The first equation is resolved at
its heads; then a variable is bound, or there is a clash, or two operations fall apart. These
are replaced by the equation at the first place where they differ and those to the right of it.
The leftmost equation always comes first, and of two variables the left one is bound.

An equation counts the bindings crossed on the way from the given left term down to its left
side. There are no more variables than words, and a way that crosses one twice goes round a
cycle; so a count beyond that is unknown territory, and every step makes the equation smaller
in the count and then in the size of its left side.

Payloads have an equality, and no law of it is asked for: a floating point number that is none is a
payload that differs from itself. Only pairs that are equal whatever is bound are left out without
a step. That unifiers are most general takes an equality that is an equivalence, and the theorems
that need it, or need payloads equal to themselves, say so.
-/
namespace Relational

/-!
## Clashes

The reasons for which two terms have no common instance. A clash is the first one met, so a
reader learns one reason and not all of them.
-/

/-- Why two terms do not unify. -/
inductive Clash where
  /-- A variable appears in the term it would be bound to. -/
  | occursCheck (index : UInt64)
  /-- Two operations have different symbols. -/
  | symbols (left right : String)
  /-- Two operations have one symbol and different numbers of arguments. -/
  | arities (symbol : String) (left right : Nat)
  /-- Two atoms have different payloads. -/
  | atoms
  /-- An atom stands against an operation. -/
  | kinds
  deriving DecidableEq

namespace Clash

/-- The clash of the same two terms in the other order. -/
def swap : Clash → Clash
  | occursCheck index => occursCheck index
  | symbols left right => symbols right left
  | arities symbol left right => arities symbol right left
  | atoms => atoms
  | kinds => kinds

/-- The sentence that reports a clash. -/
def message : Clash → String
  | occursCheck index =>
    "occurs check failed: v" ++ toString index.toNat ++
      " appears in the term it would be bound to"
  | symbols left right => "symbol mismatch: `" ++ left ++ "` vs `" ++ right ++ "`"
  | arities symbol left right =>
    "arity mismatch for `" ++ symbol ++ "`: " ++ toString left ++ " vs " ++ toString right
  | atoms => "atom payloads differ"
  | kinds => "cannot unify an atom with an operation"

end Clash

/-!
## Worklists

A worklist is worked off from its front: the first item is replaced by any number of items
that are smaller in some order. If the order is well founded then so is this one
(`Worklist.wellFounded`), and working a list off comes to an end.
-/

namespace Worklist

universe u

variable {α : Type u}

/-- One list follows another by putting smaller items in the place of the first item. -/
inductive Shrinks (smaller : α → α → Prop) : List α → List α → Prop where
  /-- The items `items` stand in for `first`. -/
  | replace (first : α) (items rest : List α) (each : ∀ item ∈ items, smaller item first) :
    Shrinks smaller (items ++ rest) (first :: rest)

/-- A list that starts with an item is reached by finitely many steps if that holds of the
rest, of every smaller item, and so of any number of smaller items before that rest. -/
theorem accessible_cons {smaller : α → α → Prop} {first : α} (order : Acc smaller first)
    (rest : List α) (end_ : Acc (Shrinks smaller) rest) :
    Acc (Shrinks smaller) (first :: rest) := by
  induction order generalizing rest with
  | intro first _ ih =>
    constructor
    intro list step
    cases step with
    | replace _ items _ each =>
      induction items with
      | nil => exact end_
      | cons item items more =>
        exact ih item (each item (List.mem_cons_self ..)) (items ++ rest)
          (more fun other member => each other (List.mem_cons_of_mem _ member))

/-- Every list is worked off in finitely many steps. -/
theorem wellFounded {smaller : α → α → Prop} (order : WellFounded smaller) :
    WellFounded (Shrinks smaller) := by
  constructor
  intro list
  induction list with
  | nil => exact ⟨_, fun _ step => nomatch step⟩
  | cons first rest ih => exact accessible_cons (order.apply first) rest ih

end Worklist

/-! ## Equations -/

universe u

variable {A : Type u}

/-- Why two terms cannot become equal, as far as their heads tell. Operations are compared by
symbol first, then by number of arguments. -/
def Term.clash? [BEq A] : Term A → Term A → Option Clash
  | .atom left, .atom right => if left == right then none else some .atoms
  | .op left lefts, .op right rights =>
    if left ≠ right then some (.symbols left right)
    else if lefts.length ≠ rights.length then
      some (.arities left lefts.length rights.length)
    else none
  | .atom _, .op .. => some .kinds
  | .op .., .atom _ => some .kinds
  | .var _, _ => none
  | _, .var _ => none

namespace Unification

/-- How many variables there are. -/
def variableCount : Nat := UInt64.size

/-- What becomes of an equation. -/
inductive Outcome (A : Type u) where
  /-- It has no solution. -/
  | clash (reason : Clash)
  /-- It is solved by one more binding. -/
  | bound (bindings : Substitution A)
  /-- It holds as soon as these equations hold. -/
  | reduced (equations : List (Equation A))
  /-- Its bindings do not end. -/
  | unknown

/-- Binds a variable unless it appears in the term, seen through the bindings. -/
def bind (bindings : Substitution A) (index : UInt64) (term : Term A) : Outcome A :=
  match bindings.occurs? index term with
  | none => .unknown
  | some true => .clash (.occursCheck index)
  | some false => .bound (bindings.insert index term)

namespace Equation

/-- The count below the left side of an equation, which goes up where the left side is a
variable and stays otherwise. -/
def crossedBelow? (equation : Equation A) : Option Nat :=
  if equation.left.isVar then
    if equation.crossed < variableCount then some (equation.crossed + 1) else none
  else some equation.crossed

/-- Takes an equation apart whose sides resolve to two terms. -/
def settle [BEq A] [Decidable (ReflBEq A)] (bindings : Substitution A) (equation : Equation A)
    (left right : Term A) : Outcome A :=
  match left, right with
  | .var leftIndex, .var rightIndex =>
    if leftIndex == rightIndex then .reduced [] else Unification.bind bindings leftIndex right
  | .var index, _ => Unification.bind bindings index right
  | _, .var index => Unification.bind bindings index left
  | _, _ =>
    match equation.crossedBelow? with
    | none => .unknown
    | some crossed =>
      match (left.locate crossed right).1 with
      | none => .reduced []
      | some front =>
        match left.clash? right with
        | some reason => .clash reason
        | none => .reduced (front [])

/-- Takes one equation apart under some bindings. -/
def step [BEq A] [Decidable (ReflBEq A)] (bindings : Substitution A) (equation : Equation A) :
    Outcome A :=
  match bindings.walk? equation.left, bindings.walk? equation.right with
  | some left, some right => equation.settle bindings left right
  | _, _ => .unknown

/-- One equation is smaller than another: more crossings lie behind it, or as many and its
left side is smaller. -/
def Smaller (left right : Equation A) : Prop :=
  Prod.Lex (· < ·) (· < ·) (variableCount - left.crossed, sizeOf left.left)
    (variableCount - right.crossed, sizeOf right.left)

/-- There is no endless descent. -/
theorem smaller_wellFounded : WellFounded (@Smaller A) :=
  InvImage.wf
    (fun equation : Equation A => (variableCount - equation.crossed, sizeOf equation.left))
    (Prod.lex ⟨_, Nat.lt_wfRel.wf⟩ ⟨_, Nat.lt_wfRel.wf⟩).wf

/-- Following the bindings of a term that is no variable leads nowhere. -/
theorem walk?_of_not_isVar {bindings : Substitution A} {term : Term A}
    (rigid : term.isVar = false) : bindings.walk? term = some term := by
  have unbound : bindings.binding? term = none := by
    cases term with
    | var => simp [Term.isVar, Term.index?] at rigid
    | atom => rfl
    | op => rfl
  unfold Substitution.walk? Substitution.follow?
  split <;> simp [unbound]

/-- What is smaller than the resolved left side makes a smaller equation. -/
theorem smaller_of_sizeOf_lt {bindings : Substitution A} {equation item : Equation A}
    {left : Term A} (resolved : bindings.walk? equation.left = some left)
    (counted : equation.crossedBelow? = some item.crossed)
    (inside : sizeOf item.left < sizeOf left) : Smaller item equation := by
  unfold crossedBelow? at counted
  by_cases rigid : equation.left.isVar = true
  · simp only [rigid, if_true] at counted
    split at counted
    · next room =>
      injection counted with counted
      apply Prod.Lex.left
      omega
    · simp at counted
  · have rigid : equation.left.isVar = false := Bool.eq_false_iff.mpr rigid
    simp [rigid] at counted
    rw [walk?_of_not_isVar rigid] at resolved
    injection resolved with resolved
    subst resolved
    unfold Smaller
    rw [counted]
    exact Prod.Lex.right _ inside

/-- What is found between two terms without a clash lies strictly inside. -/
theorem sizeOf_lt_of_locate [BEq A] [Decidable (ReflBEq A)] {crossed : Nat} {left right : Term A}
    {front : Front A} (rigid : left.isVar = false) (other : right.isVar = false)
    (found : (left.locate crossed right).1 = some front) (free : left.clash? right = none)
    {item : Equation A} (member : item ∈ front []) :
    sizeOf item.left < sizeOf left ∧ item.crossed = crossed := by
  rw [(left.locate crossed right).2] at found
  cases left with
  | var => simp [Term.isVar, Term.index?] at rigid
  | atom payload =>
    cases right with
    | var => simp [Term.isVar, Term.index?] at other
    | atom => simp_all [Term.clash?, Term.differences]
    | op => simp [Term.clash?] at free
  | op symbol lefts =>
    cases right with
    | var => simp [Term.isVar, Term.index?] at other
    | atom => simp [Term.clash?] at free
    | op otherSymbol rights =>
      simp only [Term.clash?] at free
      split at free
      · simp at free
      · split at free
        · simp at free
        · next symbols lengths =>
          simp only [Term.differences, Decidable.not_not.mp symbols,
            Decidable.not_not.mp lengths, if_true] at found
          have smaller : ∀ left ∈ lefts, sizeOf left < sizeOf (Term.op symbol lefts) :=
            fun _ member => Term.sizeOf_lt_of_mem member
          have inside := Term.mem_differencesAll
            (fun left member _ _ _ _ found inner =>
              Term.mem_differences (fun _ _ bound _ member =>
                Nat.lt_trans (Term.sizeOf_lt_of_mem member) bound)
                (smaller left member) found inner)
            smaller found member
          simpa using inside

/-- An equation is only replaced by smaller ones. -/
theorem smaller_of_step [BEq A] [Decidable (ReflBEq A)] {bindings : Substitution A}
    {equation : Equation A} {equations : List (Equation A)}
    (stepped : equation.step bindings = .reduced equations) :
    ∀ item ∈ equations, Smaller item equation := by
  have none_of_bind (index : UInt64) (term : Term A) :
      Unification.bind bindings index term ≠ .reduced equations := by
    unfold Unification.bind
    split <;> simp
  unfold step at stepped
  split at stepped
  · next left right resolved _ =>
    unfold settle at stepped
    split at stepped
    · split at stepped
      · injection stepped with stepped
        simp [← stepped]
      · exact absurd stepped (none_of_bind _ _)
    · exact absurd stepped (none_of_bind _ _)
    · exact absurd stepped (none_of_bind _ _)
    · next leftRigid rightRigid _ =>
      split at stepped
      · simp at stepped
      · next crossed counted =>
        split at stepped
        · injection stepped with stepped
          simp [← stepped]
        · next front found =>
          split at stepped
          · simp at stepped
          · next free =>
            injection stepped with stepped
            subst stepped
            intro item member
            have left_rigid : left.isVar = false := by
              cases left with
              | var index => exact (leftRigid index rfl).elim
              | atom => rfl
              | op => rfl
            have right_rigid : right.isVar = false := by
              cases right with
              | var index => exact (rightRigid index rfl).elim
              | atom => rfl
              | op => rfl
            have inside := sizeOf_lt_of_locate left_rigid right_rigid found free member
            exact smaller_of_sizeOf_lt resolved (inside.2 ▸ counted) inside.1
  · simp at stepped

end Equation

/-- Works off equations under some bindings: the bindings that solve them all, or the first
clash, or `none` if the bindings do not end. -/
def solve? [BEq A] [Decidable (ReflBEq A)] (bindings : Substitution A)
    (pending : List (Equation A)) : Option (Except Clash (Substitution A)) :=
  match pending with
  | [] => some (.ok bindings)
  | equation :: rest =>
    match _stepped : equation.step bindings with
    | .clash reason => some (.error reason)
    | .bound bindings => solve? bindings rest
    | .reduced equations => solve? bindings (equations ++ rest)
    | .unknown => none
termination_by (Worklist.wellFounded Equation.smaller_wellFounded).wrap pending
decreasing_by
  · exact .replace equation [] rest (fun _ member => nomatch member)
  · exact .replace equation equations rest (Equation.smaller_of_step _stepped)

end Unification

/-- The bindings extended so that two terms become equal, or the first clash; unknown if the
bindings do not end. -/
def unify? [BEq A] [Decidable (ReflBEq A)] (left right : Term A) (bindings : Substitution A) :
    Option (Except Clash (Substitution A)) :=
  Unification.solve? bindings [⟨left, right, 0⟩]

/-- The most general extension of some bindings that makes two terms equal, or the first
clash. Equal terms add no binding. Bindings that go round a cycle have no answer and are
returned as they are. -/
def unify [BEq A] [Decidable (ReflBEq A)] (left right : Term A) (bindings : Substitution A) :
    Except Clash (Substitution A) :=
  (unify? left right bindings).getD (.ok bindings)

/-- Whether an extension of some bindings added nothing to them. -/
def Substitution.unchanged (before after : Substitution A) : Bool :=
  before.size == after.size

end Relational
