import Relational.Proofs.Unification.Equations

/-!
# Most general unifiers

Working off equations under acyclic bindings keeps three things: the bindings stay acyclic and
only grow, the solutions of the bindings that solve the pending equations stay the same, and the
number of bindings crossed on the way down to an equation is the length of a way without
repetition, so it never runs out. When no equation is left the bindings alone have the solutions
asked for, and a clash is met only where there is none.
-/
namespace Relational

universe u

variable {A : Type u}

namespace Substitution

variable {bindings : Substitution A}

/-- So many variables lead, one to the next, down to every variable of a term. -/
def Behind (bindings : Substitution A) (crossed : Nat) (term : Term A) : Prop :=
  ∃ way : List UInt64, way.length = crossed ∧ way.Pairwise bindings.Reaches ∧
    ∀ index ∈ way, ∀ other ∈ term.vars, bindings.Reaches index other

/-- Nothing has to lie behind a term. -/
theorem behind_zero (term : Term A) : bindings.Behind 0 term :=
  ⟨[], rfl, .nil, fun _ member => nomatch member⟩

/-- What lies behind a term lies behind its parts. -/
theorem Behind.inside {crossed : Nat} {term inner : Term A} (behind : bindings.Behind crossed term)
    (part : inner.vars ⊆ term.vars) : bindings.Behind crossed inner := by
  obtain ⟨way, length, chain, down⟩ := behind
  exact ⟨way, length, chain, fun index member other appears =>
    down index member other (part appears)⟩

/-- What lies behind a term stays there where bindings are added. -/
theorem Behind.extend {after : Substitution A} (extends_ : bindings.Extends after) {crossed : Nat}
    {term : Term A} (behind : bindings.Behind crossed term) : after.Behind crossed term := by
  obtain ⟨way, length, chain, down⟩ := behind
  exact ⟨way, length, chain.imp fun reaches => reaches.extend extends_,
    fun index member other appears => (down index member other appears).extend extends_⟩

/-- A bound variable lies behind the term it leads to. -/
theorem Behind.cross {crossed : Nat} {index : UInt64} {stop : Term A}
    (behind : bindings.Behind crossed (.var index))
    (reached : ∀ other ∈ stop.vars, bindings.Reaches index other) :
    bindings.Behind (crossed + 1) stop := by
  obtain ⟨way, length, chain, down⟩ := behind
  have last : ∀ before ∈ way, bindings.Reaches before index :=
    fun before member => down before member index (by simp)
  refine ⟨way ++ [index], by simp [length], ?_, ?_⟩
  · rw [List.pairwise_append]
    refine ⟨chain, List.pairwise_singleton _ _, fun before member after here => ?_⟩
    rw [List.mem_singleton] at here
    exact here ▸ last before member
  · intro before member other appears
    rw [List.mem_append, List.mem_singleton] at member
    obtain member | rfl := member
    · exact (last before member).trans (reached other appears)
    · exact reached other appears

/-- There are too few variables for as many to lie behind a variable as there are. -/
theorem Acyclic.behind_lt (acyclic : bindings.Acyclic) {crossed : Nat} {index : UInt64}
    (behind : bindings.Behind crossed (.var index)) :
    crossed < Unification.variableCount := by
  obtain ⟨way, length, chain, down⟩ := behind
  have once : way.Nodup := by
    apply chain.imp
    rintro before after reaches rfl
    exact acyclic before reaches
  have distinct : (way ++ [index]).Nodup := by
    rw [List.nodup_append]
    refine ⟨once, by simp, ?_⟩
    intro before member after here same
    rw [List.mem_singleton] at here
    rw [same, here] at member
    exact acyclic index (down index member index (by simp))
  have bounded := distinct.length_le_card
  rw [List.length_append, length, List.length_singleton] at bounded
  have words : Fintype.card UInt64 = Unification.variableCount := by
    rw [← FinEnum.card_eq_fintypeCard]
    rfl
  omega

end Substitution

namespace Unification

variable [BEq A] {bindings : Substitution A}

/-- New bindings are acyclic and new equations lie below the bindings crossed. Where payload
equality is an equivalence, an outcome keeps the solutions of the bindings that solve an
equation. -/
def Outcome.Right (bindings : Substitution A) (left right : Term A) : Outcome A → Prop
  | clash _ => EquivBEq A → ∀ valuation : Valuation A, valuation.Solves bindings →
      ¬ valuation.Equates left right
  | bound after => after.Acyclic ∧ bindings.Extends after ∧
      (EquivBEq A → ∀ valuation : Valuation A, valuation.Solves after ↔
        valuation.Solves bindings ∧ valuation.Equates left right)
  | reduced equations => (∀ equation ∈ equations, bindings.Behind equation.crossed equation.left) ∧
      (EquivBEq A → ∀ valuation : Valuation A, valuation.Solves bindings →
        (valuation.EquatesAll equations ↔ valuation.Equates left right))
  | unknown => False

/-- An outcome is right for an equation with the same solutions. -/
theorem Outcome.Right.congr {left right leftStop rightStop : Term A} {outcome : Outcome A}
    (right_ : outcome.Right bindings leftStop rightStop)
    (same : EquivBEq A → ∀ valuation : Valuation A, valuation.Solves bindings →
      (valuation.Equates left right ↔ valuation.Equates leftStop rightStop)) :
    outcome.Right bindings left right := by
  cases outcome with
  | clash reason =>
    intro equivalence valuation solves
    rw [same equivalence valuation solves]
    exact right_ equivalence valuation solves
  | bound after =>
    obtain ⟨acyclic, extends_, solutions⟩ := right_
    refine ⟨acyclic, extends_, fun equivalence valuation => ?_⟩
    rw [solutions equivalence valuation]
    exact and_congr_right fun solves => (same equivalence valuation solves).symm
  | reduced equations =>
    obtain ⟨behind, solutions⟩ := right_
    refine ⟨behind, fun equivalence valuation solves => ?_⟩
    rw [solutions equivalence valuation solves, same equivalence valuation solves]
  | unknown => exact right_

/-- To bind a variable without a binding to another resolved term is right for the equation
between them. -/
theorem right_bind (acyclic : bindings.Acyclic) {index : UInt64} {term : Term A}
    (unbound : bindings.get? index = none) (resolved : bindings.binding? term = none)
    (different : term ≠ .var index) :
    (Unification.bind bindings index term).Right bindings (.var index) term := by
  rw [Unification.bind, acyclic.occurs?_eq]
  by_cases appears : index ∈ (bindings.reify term).vars
  · rw [decide_eq_true appears]
    exact fun _ valuation solves =>
      acyclic.not_equates_of_occurs solves resolved different appears
  · rw [decide_eq_false appears]
    refine ⟨acyclic.insert unbound appears, Substitution.extends_insert unbound,
      fun _ valuation => ?_⟩
    rw [Valuation.solves_insert unbound, Valuation.Equates, Term.bind_var]

/-- To bind a variable on the right is right as well. -/
theorem right_bind_comm (acyclic : bindings.Acyclic) {index : UInt64} {term : Term A}
    (unbound : bindings.get? index = none)
    (resolved : bindings.binding? term = none) (different : term ≠ .var index) :
    (Unification.bind bindings index term).Right bindings term (.var index) :=
  (right_bind acyclic unbound resolved different).congr fun _ _ _ => Valuation.equates_comm

omit [BEq A] in
/-- The count below the left side of an equation is known, and so much lies behind the term that
the left side leads to. -/
theorem exists_crossedBelow? (acyclic : bindings.Acyclic) {equation : Equation A}
    {left : Term A} (behind : bindings.Behind equation.crossed equation.left)
    (leads : bindings.Leads equation.left left) (rigid : left.isVar = false) :
    ∃ crossed, equation.crossedBelow? = some crossed ∧ bindings.Behind crossed left := by
  unfold Equation.crossedBelow?
  obtain same | ⟨index, _, same, reached⟩ := leads.eq_or_reaches
  · rw [same, rigid]
    exact ⟨equation.crossed, rfl, same ▸ behind⟩
  · rw [same] at behind ⊢
    refine ⟨equation.crossed + 1, ?_, behind.cross reached⟩
    rw [if_pos (by rfl), if_pos (acyclic.behind_lt behind)]

/-- Taking two resolved terms apart where they differ is right for the equation between them. -/
theorem right_settle [Decidable (ReflBEq A)] (acyclic : bindings.Acyclic) {equation : Equation A}
    {left right : Term A} (behind : bindings.Behind equation.crossed equation.left)
    (leads : bindings.Leads equation.left left)
    (leftResolved : bindings.binding? left = none)
    (rightResolved : bindings.binding? right = none) :
    (equation.settle bindings left right).Right bindings left right := by
  unfold Equation.settle
  split
  · next leftIndex rightIndex =>
    by_cases same : leftIndex = rightIndex
    · subst same
      rw [if_pos (by simp)]
      refine ⟨fun _ member => (nomatch member), fun equivalence valuation _ => ?_⟩
      simp [Valuation.equates_of_beq]
    · rw [if_neg (by simpa using same)]
      exact right_bind acyclic leftResolved rightResolved fun vars =>
        same (Term.var.inj vars).symm
  · next distinct =>
    exact right_bind acyclic leftResolved rightResolved fun same => distinct _ same
  · next distinct =>
    exact right_bind_comm acyclic rightResolved leftResolved fun same => distinct _ same
  · next leftRigid rightRigid distinct =>
    have rigid : left.isVar = false := by
      cases left with
      | var index => exact (leftRigid index rfl).elim
      | atom | op => rfl
    obtain ⟨crossed, counted, below⟩ := exists_crossedBelow? acyclic behind leads rigid
    rw [counted]
    dsimp only
    rw [(left.locate crossed right).2]
    have compared := Term.compared_differences crossed left right
    cases found : left.differences crossed right with
    | none =>
      rw [found] at compared
      refine ⟨fun _ member => (nomatch member), fun _ valuation _ => ?_⟩
      simp [compared valuation]
    | some front =>
      rw [found] at compared
      dsimp only
      cases clash : left.clash? right with
      | some reason => exact fun _ valuation _ => Term.not_equates_of_clash clash valuation
      | none =>
        refine ⟨fun item member => ?_, fun _ valuation _ => ?_⟩
        · have inside := Term.mem_differences
            (fun _ _ whole argument inner => whole.inside (Term.vars_subset_of_mem inner))
            below found member
          simp only [List.not_mem_nil, false_or] at inside
          exact inside.2 ▸ inside.1
        · rw [compared valuation []]
          simp

/-- One step on an equation is right for it. -/
theorem right_step [Decidable (ReflBEq A)] (acyclic : bindings.Acyclic) {equation : Equation A}
    (behind : bindings.Behind equation.crossed equation.left) :
    (equation.step bindings).Right bindings equation.left equation.right := by
  obtain ⟨left, leftWalked, leftLeads, leftResolved⟩ := acyclic.exists_walk? equation.left
  obtain ⟨right, rightWalked, rightLeads, rightResolved⟩ := acyclic.exists_walk? equation.right
  rw [Equation.step, leftWalked, rightWalked]
  exact (right_settle acyclic behind leftLeads leftResolved rightResolved).congr
    fun _ valuation solves => solves.equates_congr leftLeads rightLeads

/-- Bindings that answer equations are acyclic and extend the given ones. Where payload equality is
an equivalence, an answer keeps the solutions of the given bindings that solve the equations. -/
def Answers (bindings : Substitution A) (pending : List (Equation A)) :
    Except Clash (Substitution A) → Prop
  | .ok after => after.Acyclic ∧ bindings.Extends after ∧
      (EquivBEq A → ∀ valuation : Valuation A, valuation.Solves after ↔
        valuation.Solves bindings ∧ valuation.EquatesAll pending)
  | .error _ => EquivBEq A → ∀ valuation : Valuation A, valuation.Solves bindings →
      ¬ valuation.EquatesAll pending

/-- Working off equations under acyclic bindings ends with an answer. -/
theorem solve?_answers [Decidable (ReflBEq A)] (bindings : Substitution A)
    (pending : List (Equation A)) (acyclic : bindings.Acyclic)
    (behind : ∀ equation ∈ pending, bindings.Behind equation.crossed equation.left) :
    ∃ answer, solve? bindings pending = some answer ∧ Answers bindings pending answer := by
  induction bindings, pending using solve?.induct with
  | case1 bindings =>
    refine ⟨.ok bindings, by rw [solve?], acyclic, .refl bindings, fun _ valuation => ?_⟩
    simp
  | case2 bindings equation rest reason stepped =>
    have right := right_step acyclic (behind equation (List.mem_cons_self ..))
    rw [stepped] at right
    refine ⟨.error reason, by rw [solve?, stepped], fun equivalence valuation solves equated => ?_⟩
    exact right equivalence valuation solves (Valuation.equatesAll_cons.mp equated).1
  | case3 bindings equation rest after stepped ih =>
    have right := right_step acyclic (behind equation (List.mem_cons_self ..))
    rw [stepped] at right
    obtain ⟨afterAcyclic, grown, solutions⟩ := right
    obtain ⟨answer, solved, answers⟩ := ih afterAcyclic fun other member =>
      (behind other (List.mem_cons_of_mem _ member)).extend grown
    refine ⟨answer, by rw [solve?, stepped]; exact solved, ?_⟩
    cases answer with
    | ok last =>
      obtain ⟨lastAcyclic, further, all⟩ := answers
      refine ⟨lastAcyclic, grown.trans further, fun equivalence valuation => ?_⟩
      rw [all equivalence valuation, solutions equivalence valuation, Valuation.equatesAll_cons,
        and_assoc]
    | error reason =>
      intro equivalence valuation solves equated
      obtain ⟨first, others⟩ := Valuation.equatesAll_cons.mp equated
      exact answers equivalence valuation
        ((solutions equivalence valuation).mpr ⟨solves, first⟩) others
  | case4 bindings equation rest equations stepped ih =>
    have right := right_step acyclic (behind equation (List.mem_cons_self ..))
    rw [stepped] at right
    obtain ⟨below, solutions⟩ := right
    obtain ⟨answer, solved, answers⟩ := ih acyclic (by
      intro other member
      obtain new | old := List.mem_append.mp member
      · exact below other new
      · exact behind other (List.mem_cons_of_mem _ old))
    refine ⟨answer, by rw [solve?, stepped]; exact solved, ?_⟩
    have same : EquivBEq A → ∀ valuation : Valuation A, valuation.Solves bindings →
        (valuation.EquatesAll (equations ++ rest) ↔ valuation.EquatesAll (equation :: rest)) := by
      intro equivalence valuation solves
      rw [Valuation.equatesAll_append, Valuation.equatesAll_cons,
        solutions equivalence valuation solves]
    cases answer with
    | ok last =>
      obtain ⟨lastAcyclic, grown, all⟩ := answers
      refine ⟨lastAcyclic, grown, fun equivalence valuation => ?_⟩
      rw [all equivalence valuation]
      exact and_congr_right (same equivalence valuation)
    | error reason =>
      intro equivalence valuation solves equated
      exact answers equivalence valuation solves ((same equivalence valuation solves).mpr equated)
  | case5 bindings equation rest stepped =>
    have right := right_step acyclic (behind equation (List.mem_cons_self ..))
    rw [stepped] at right
    exact right.elim

end Unification

/-- Unification under acyclic bindings ends. Bindings that it returns are acyclic and extend the
given ones. -/
theorem unify?_answers [BEq A] [Decidable (ReflBEq A)] (left right : Term A)
    {bindings : Substitution A} (acyclic : bindings.Acyclic) :
    unify? left right bindings = some (unify left right bindings) ∧
      Unification.Answers bindings [⟨left, right, 0⟩] (unify left right bindings) := by
  obtain ⟨answer, solved, answers⟩ := Unification.solve?_answers bindings [⟨left, right, 0⟩]
    acyclic fun equation member => by
      rw [List.mem_singleton.mp member]
      exact Substitution.behind_zero left
  have ended : unify? left right bindings = some answer := solved
  have result : unify left right bindings = answer := by rw [unify, ended, Option.getD_some]
  rw [result]
  exact ⟨ended, answers⟩

/-- Under acyclic bindings it makes no difference that unification may not end. -/
theorem unify?_eq_ok_iff [BEq A] [Decidable (ReflBEq A)] {left right : Term A}
    {bindings after : Substitution A} (acyclic : bindings.Acyclic) :
    unify? left right bindings = some (.ok after) ↔ unify left right bindings = .ok after := by
  rw [(unify?_answers left right acyclic).1, Option.some.injEq]

/-- Two terms unify if the first step binds one of them to the other. -/
theorem unify_eq_ok_of_step [BEq A] [Decidable (ReflBEq A)] {left right : Term A}
    {bindings after : Substitution A}
    (stepped : Unification.Equation.step bindings ⟨left, right, 0⟩ = .bound after) :
    unify left right bindings = .ok after := by
  have solved : unify? left right bindings = some (.ok after) := by
    rw [unify?, Unification.solve?, stepped]
    show Unification.solve? after [] = _
    rw [Unification.solve?]
  rw [unify, solved, Option.getD_some]

/-- Bindings that unification returns are acyclic. -/
theorem Substitution.Acyclic.unify [BEq A] [Decidable (ReflBEq A)] {left right : Term A}
    {bindings after : Substitution A} (acyclic : bindings.Acyclic)
    (unified : Relational.unify left right bindings = .ok after) : after.Acyclic := by
  have answers := (unify?_answers left right acyclic).2
  rw [unified] at answers
  exact answers.1

/-- The bindings that unification returns have as solutions those of the given ones that equate the
terms. -/
theorem solves_of_unify [BEq A] [EquivBEq A] {left right : Term A}
    {bindings after : Substitution A} (acyclic : bindings.Acyclic)
    (unified : unify left right bindings = .ok after) (valuation : Valuation A) :
    valuation.Solves after ↔ valuation.Solves bindings ∧ valuation.Equates left right := by
  have answers := (unify?_answers left right acyclic).2
  rw [unified] at answers
  obtain ⟨_, _, solutions⟩ := answers
  rw [solutions inferInstance valuation, Valuation.equatesAll_cons]
  simp

/-- Where unification returns a clash no solution of the bindings equates the terms. -/
theorem not_equates_of_unify [BEq A] [EquivBEq A] {left right : Term A}
    {bindings : Substitution A} {reason : Clash} (acyclic : bindings.Acyclic)
    (clashed : unify left right bindings = .error reason) (valuation : Valuation A)
    (solves : valuation.Solves bindings) : ¬ valuation.Equates left right := by
  have answers := (unify?_answers left right acyclic).2
  rw [clashed] at answers
  intro equated
  apply answers inferInstance valuation solves
  rw [Valuation.equatesAll_cons]
  exact ⟨equated, by simp⟩

/-- Unification under acyclic bindings ends. What it returns has as solutions exactly those of the
given bindings that equate the terms, and resolves both terms to one; it returns a clash only where
no solution of the bindings equates the terms. Resolving is itself a solution of the bindings that
are returned, so it equates the terms. -/
theorem unify_most_general [BEq A] [EquivBEq A] (left right : Term A) (bindings : Substitution A)
    (acyclic : bindings.Acyclic) :
    unify? left right bindings = some (unify left right bindings) ∧
      (∀ after, unify left right bindings = .ok after →
        (∀ valuation : Valuation A, valuation.Solves after ↔
          valuation.Solves bindings ∧ valuation.Equates left right) ∧
        ∃ leftResolved rightResolved, after.reify? left = some leftResolved ∧
          after.reify? right = some rightResolved ∧ leftResolved == rightResolved) ∧
      ∀ reason, unify left right bindings = .error reason →
        ∀ valuation : Valuation A, valuation.Solves bindings →
          ¬ valuation.Equates left right := by
  have ended := (unify?_answers left right acyclic).1
  refine ⟨ended, fun after unified => ?_, fun reason clashed => ?_⟩
  · have afterAcyclic := acyclic.unify unified
    have solutions := solves_of_unify acyclic unified
    refine ⟨solutions, _, _, afterAcyclic.reify?_eq left, afterAcyclic.reify?_eq right, ?_⟩
    have equated := ((solutions after.value).mp afterAcyclic.value_solves).2
    rw [afterAcyclic.reify_eq_bind, afterAcyclic.reify_eq_bind]
    exact equated
  · exact not_equates_of_unify acyclic clashed

/-- With `v1` bound to `g(v0)`, unifying `v0` with `f(v1)` closes a cycle through `v1`, and no
solution equates the two. -/
theorem unify_through_binding :
    let bindings : Substitution Int64 := IntMap.insert IntMap.empty 1 (.op "g" [.var 0])
    bindings.Acyclic ∧
      unify (.var 0) (.op "f" [.var 1]) bindings = .error (.occursCheck 0) ∧
      ∀ valuation : Valuation Int64, valuation.Solves bindings →
        ¬ valuation.Equates (.var 0) (.op "f" [.var 1]) := by
  intro bindings
  have absent : (1 : UInt64) ∉ (Substitution.reify IntMap.empty
      (.op "g" [.var 0] : Term Int64)).vars := by
    rw [Substitution.acyclic_empty.reify_eq_bind]
    simp [Substitution.value_of_get?_eq_none]
  have acyclic : bindings.Acyclic :=
    Substitution.acyclic_empty.insert (IntMap.get?_empty 1) absent
  have stepped : Unification.Equation.step bindings ⟨.var 0, .op "f" [.var 1], 0⟩ =
      .clash (.occursCheck 0) := by cbv
  have clashed : unify (.var 0) (.op "f" [.var 1]) bindings = .error (.occursCheck 0) := by
    rw [unify, unify?, Unification.solve?, stepped]
    rfl
  exact ⟨acyclic, clashed, (unify_most_general _ _ bindings acyclic).2.2 _ clashed⟩

end Relational
