import Relational.Proofs.Substitution.Solutions
import Relational.Unification.Basic

/-!
# Solutions of equations

An equation between operations has the solutions of the equations between their arguments, and
an equation between any two terms has those of the equations at and behind the first place where
the terms differ. Two terms that clash at their heads have no solution, whatever the variables
in them stand for.
-/
namespace Relational

universe u

variable {A : Type u} [BEq A]

open Unification (Equation Front between)

namespace Valuation

variable {valuation : Valuation A}

/-- Both sides of every equation have one value. -/
def EquatesAll (valuation : Valuation A) (equations : List (Equation A)) : Prop :=
  ∀ equation ∈ equations, valuation.Equates equation.left equation.right

/-- No equations ask for nothing. -/
@[simp] theorem equatesAll_nil : valuation.EquatesAll [] :=
  fun _ member => nomatch member

/-- Equations hold one by one. -/
@[simp] theorem equatesAll_cons {equation : Equation A} {equations : List (Equation A)} :
    valuation.EquatesAll (equation :: equations) ↔
      valuation.Equates equation.left equation.right ∧ valuation.EquatesAll equations :=
  List.forall_mem_cons

/-- Equations of two lists hold list by list. -/
@[simp] theorem equatesAll_append {first second : List (Equation A)} :
    valuation.EquatesAll (first ++ second) ↔
      valuation.EquatesAll first ∧ valuation.EquatesAll second :=
  List.forall_mem_append

/-- Equal terms have one value. -/
theorem equates_of_beq [ReflBEq A] {left right : Term A} (same : left == right) :
    valuation.Equates left right :=
  Term.bind_beq_bind valuation same

/-- Operations have one value if their symbols and the values of their arguments agree. -/
theorem equates_op {left right : String} {lefts rights : List (Term A)} :
    valuation.Equates (.op left lefts) (.op right rights) ↔
      left = right ∧ List.Forall₂ valuation.Equates lefts rights := by
  rw [Equates, Term.bind_op, Term.bind_op, Term.op_beq_op, List.forall₂_map_left_iff,
    List.forall₂_map_right_iff]
  rfl

/-- Equations between arguments ask that the arguments have one value, one by one. -/
theorem equatesAll_between (crossed : Nat) {lefts rights : List (Term A)}
    (lengths : lefts.length = rights.length) (rest : List (Equation A)) :
    valuation.EquatesAll (between crossed lefts rights rest) ↔
      List.Forall₂ valuation.Equates lefts rights ∧ valuation.EquatesAll rest := by
  induction lefts generalizing rights with
  | nil =>
    cases rights with
    | nil => simp [between]
    | cons => simp at lengths
  | cons left lefts ih =>
    cases rights with
    | nil => simp at lengths
    | cons right rights =>
      rw [between, equatesAll_cons, ih (Nat.succ.inj lengths), List.forall₂_cons, and_assoc]

end Valuation

namespace Term

/-- Terms that clash at their heads have one value under no valuation. -/
theorem not_equates_of_clash {left right : Term A} {reason : Clash}
    (clash : left.clash? right = some reason) (valuation : Valuation A) :
    ¬ valuation.Equates left right := by
  intro equated
  cases left with
  | var => simp [clash?] at clash
  | atom payload =>
    cases right with
    | var => simp [clash?] at clash
    | atom other =>
      have same : payload == other := by simpa [Valuation.Equates] using equated
      simp [clash?, same] at clash
    | op => simp [Valuation.Equates] at equated
  | op symbol lefts =>
    cases right with
    | var => simp [clash?] at clash
    | atom => simp [Valuation.Equates] at equated
    | op other rights =>
      obtain ⟨symbols, arguments⟩ := Valuation.equates_op.mp equated
      simp [clash?, symbols, arguments.length_eq] at clash

/-- What a comparison of two terms finds out about their common values. -/
def Compared (left right : Term A) : Option (Front A) → Prop
  | none => ∀ valuation : Valuation A, valuation.Equates left right
  | some front => ∀ (valuation : Valuation A) (rest : List (Equation A)),
      valuation.EquatesAll (front rest) ↔
        valuation.Equates left right ∧ valuation.EquatesAll rest

/-- Where two terms differ at once, the equation between them is what is found. -/
theorem compared_here (crossed : Nat) (left right : Term A) :
    Compared left right (some (⟨left, right, crossed⟩ :: ·)) := by
  intro valuation rest
  rw [Valuation.equatesAll_cons]

variable [Decidable (ReflBEq A)]

/-- Arguments are compared one by one if each of them is compared. -/
theorem compared_differencesAll (crossed : Nat) {lefts rights : List (Term A)}
    (lengths : lefts.length = rights.length)
    (each : ∀ left ∈ lefts, ∀ right, Compared left right (differences crossed left right)) :
    match differencesAll crossed lefts rights with
    | none => ∀ valuation : Valuation A, List.Forall₂ valuation.Equates lefts rights
    | some front => ∀ (valuation : Valuation A) (rest : List (Equation A)),
        valuation.EquatesAll (front rest) ↔
          List.Forall₂ valuation.Equates lefts rights ∧ valuation.EquatesAll rest := by
  induction lefts generalizing rights with
  | nil =>
    cases rights with
    | nil => exact fun _ => .nil
    | cons => simp at lengths
  | cons left lefts ih =>
    cases rights with
    | nil => simp at lengths
    | cons right rights =>
      have lengths : lefts.length = rights.length := Nat.succ.inj lengths
      have first := each left (List.mem_cons_self ..) right
      have later := ih lengths fun other member => each other (List.mem_cons_of_mem _ member)
      rw [differencesAll]
      cases found : differences crossed left right with
      | none =>
        rw [found] at first
        dsimp only
        cases others : differencesAll crossed lefts rights with
        | none =>
          rw [others] at later
          exact fun valuation => .cons (first valuation) (later valuation)
        | some front =>
          rw [others] at later
          intro valuation rest
          rw [later valuation rest, List.forall₂_cons, and_iff_right (first valuation)]
      | some front =>
        rw [found] at first
        intro valuation rest
        rw [first valuation, Valuation.equatesAll_between crossed lengths, List.forall₂_cons,
          and_assoc]

/-- The first place where two terms differ has, with what is behind it, the solutions of the
equation between the terms; terms without such a place have one value whatever their variables stand
for. -/
theorem compared_differences (crossed : Nat) (left right : Term A) :
    Compared left right (differences crossed left right) := by
  induction left using induct generalizing right with
  | var index =>
    cases right with
    | var other =>
      rw [differences]
      split
      · next same =>
        obtain ⟨same, reflexive⟩ := same
        exact fun _ => Valuation.equates_of_beq (by simpa using same)
      · exact compared_here crossed _ _
    | atom | op => exact compared_here crossed _ _
  | atom payload =>
    cases right with
    | atom other =>
      rw [differences]
      split
      · next same =>
        intro valuation
        rwa [Valuation.Equates, Term.bind_atom, Term.bind_atom, Term.atom_beq_atom]
      · exact compared_here crossed _ _
    | var | op => exact compared_here crossed _ _
  | op symbol lefts each =>
    cases right with
    | op other rights =>
      rw [differences]
      split
      · next symbols =>
        split
        · next lengths =>
          have inner := compared_differencesAll crossed lengths each
          cases found : differencesAll crossed lefts rights with
          | none =>
            rw [found] at inner
            exact fun valuation => Valuation.equates_op.mpr ⟨symbols, inner valuation⟩
          | some front =>
            rw [found] at inner
            intro valuation rest
            rw [inner valuation rest, Valuation.equates_op, and_iff_right symbols]
        · exact compared_here crossed _ _
      · exact compared_here crossed _ _
    | var | atom => exact compared_here crossed _ _

end Term

end Relational
