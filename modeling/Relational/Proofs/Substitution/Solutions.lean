import Relational.Proofs.Substitution.Resolution

/-!
# Solutions of acyclic substitutions

A solution gives every term the value of what the term resolves to (`Acyclic.bind_reify`), so
solutions are exactly the instances of resolving, and resolving itself is one of them. One more
binding asks one more equation of a solution. A variable that appears strictly inside what a
term resolves to has the value of that term in no solution.
-/
namespace Relational

universe u

variable {A : Type u} [BEq A]

namespace Valuation

variable {valuation : Valuation A} {bindings : Substitution A}

/-- What solves more bindings solves fewer. -/
theorem Solves.of_extends {after : Substitution A} (solves : valuation.Solves after)
    (extends_ : bindings.Extends after) : valuation.Solves bindings :=
  fun index term bound => solves index term (extends_ index term bound)

/-- One more binding asks one more equation of a solution. -/
theorem solves_insert {index : UInt64} {term : Term A} (unbound : bindings.get? index = none) :
    valuation.Solves (IntMap.insert bindings index term) ↔
      valuation.Solves bindings ∧ valuation index == term.bind valuation := by
  constructor
  · intro solves
    refine ⟨solves.of_extends (Substitution.extends_insert unbound), ?_⟩
    apply solves index term
    rw [IntMap.get?_insert, if_pos rfl]
  · rintro ⟨solves, equated⟩ other found bound
    rw [IntMap.get?_insert] at bound
    by_cases same : other = index
    · rw [if_pos same] at bound
      injection bound with bound
      rw [same, ← bound]
      exact equated
    · rw [if_neg same] at bound
      exact solves other found bound

/-- A solution gives one value to terms that lead to one another. -/
theorem Solves.bind_beq_of_leads [EquivBEq A] (solves : valuation.Solves bindings)
    {start stop : Term A} (leads : bindings.Leads start stop) :
    start.bind valuation == stop.bind valuation := by
  induction leads with
  | here term => exact BEq.rfl
  | cross bound onward ih =>
    rw [Term.bind_var]
    exact BEq.trans (solves _ _ bound) ih

/-- Equations between terms that lead to other terms have the solutions of the equations between
those. -/
theorem Solves.equates_congr [EquivBEq A] (solves : valuation.Solves bindings)
    {left right leftStop rightStop : Term A} (leftLeads : bindings.Leads left leftStop)
    (rightLeads : bindings.Leads right rightStop) :
    valuation.Equates left right ↔ valuation.Equates leftStop rightStop := by
  have lefts := solves.bind_beq_of_leads leftLeads
  have rights := solves.bind_beq_of_leads rightLeads
  constructor
  · intro equated
    exact BEq.trans (BEq.symm lefts) (BEq.trans equated rights)
  · intro equated
    exact BEq.trans lefts (BEq.trans equated (BEq.symm rights))

/-- An equation has no direction. -/
theorem equates_comm [PartialEquivBEq A] {left right : Term A} :
    valuation.Equates left right ↔ valuation.Equates right left :=
  ⟨BEq.symm, BEq.symm⟩

end Valuation

namespace Substitution

variable {bindings : Substitution A}

/-- Resolving solves acyclic bindings. -/
theorem Acyclic.value_solves [ReflBEq A] (acyclic : bindings.Acyclic) :
    bindings.value.Solves bindings := by
  intro index term bound
  rw [acyclic.value_of_get?_eq_some bound]
  exact BEq.rfl

/-- A solution gives every variable the value of what the variable resolves to. -/
theorem Acyclic.bind_value_beq [EquivBEq A] (acyclic : bindings.Acyclic)
    {valuation : Valuation A} (solves : valuation.Solves bindings) (index : UInt64) :
    (bindings.value index).bind valuation == valuation index := by
  induction index using acyclic.induct with
  | step index ih =>
    cases bound : bindings.get? index with
    | none =>
      rw [value_of_get?_eq_none bound, Term.bind_var]
      exact BEq.rfl
    | some term =>
      have inner : (term.bind bindings.value).bind valuation == term.bind valuation := by
        rw [Term.bind_bind]
        exact Term.bind_beq_congr (ih term bound)
      rw [acyclic.value_of_get?_eq_some bound]
      exact BEq.trans inner (BEq.symm (solves index term bound))

/-- A solution gives every term the value of what the term resolves to. -/
theorem Acyclic.bind_reify [EquivBEq A] (acyclic : bindings.Acyclic)
    {valuation : Valuation A} (solves : valuation.Solves bindings) (term : Term A) :
    (bindings.reify term).bind valuation == term.bind valuation := by
  rw [acyclic.reify_eq_bind, Term.bind_bind]
  exact Term.bind_beq_congr fun index _ => acyclic.bind_value_beq solves index

/-- Any values for what a solution leaves open make another solution. -/
theorem Acyclic.instance_solves [ReflBEq A] (acyclic : bindings.Acyclic)
    (valuation : Valuation A) :
    Valuation.Solves (fun index => (bindings.value index).bind valuation) bindings := by
  intro index term bound
  change (bindings.value index).bind valuation == _
  rw [acyclic.value_of_get?_eq_some bound, Term.bind_bind]
  exact BEq.rfl

/-- A variable that appears in what another term resolves to has the value of that term in no
solution. -/
theorem Acyclic.not_equates_of_occurs [EquivBEq A] (acyclic : bindings.Acyclic)
    {valuation : Valuation A} (solves : valuation.Solves bindings) {index : UInt64}
    {term : Term A} (resolved : bindings.binding? term = none) (different : term ≠ .var index)
    (appears : index ∈ (bindings.reify term).vars) :
    ¬ valuation.Equates (.var index) term := by
  intro equated
  rw [Valuation.Equates, Term.bind_var] at equated
  have seen := BEq.trans equated (BEq.symm (acyclic.bind_reify solves term))
  rw [acyclic.reify_eq_bind] at seen appears
  cases term with
  | var other =>
    rw [Term.bind_var, value_of_get?_eq_none resolved, Term.vars_var,
      List.mem_singleton] at appears
    exact different (congrArg Term.var appears.symm)
  | atom payload => simp at appears
  | op symbol arguments =>
    rw [Term.bind_op] at seen appears
    rw [Term.bind_ne_of_mem_vars appears] at seen
    cases seen

end Substitution

end Relational
