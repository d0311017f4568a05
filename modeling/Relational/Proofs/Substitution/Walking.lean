import Relational.Proofs.Substitution.Resolution

/-!
# Walking along acyclic bindings

A term leads along bindings to one term that is not a bound variable, and walking finds it
(`Acyclic.walk_eq_of_leads`). What a term leads to resolves as the term does, so a term resolves to
what walking ends at: a variable without a binding, an atom, or an operation of what its arguments
resolve to. One more binding changes where walking ends only for terms that led to the variable
that it binds (`Acyclic.walk_insert`).
-/
namespace Relational.Substitution

universe u

variable {A : Type u} {bindings after : Substitution A}

/-- What leads to a term still does where bindings are added. -/
theorem Leads.extend (extends_ : bindings.Extends after) {start stop : Term A}
    (leads : bindings.Leads start stop) : after.Leads start stop := by
  induction leads with
  | here term => exact .here term
  | cross bound _ onward => exact .cross (extends_ _ _ bound) onward

/-- One way goes on where another ends. -/
theorem Leads.trans {start middle stop : Term A} (first : bindings.Leads start middle)
    (second : bindings.Leads middle stop) : bindings.Leads start stop := by
  induction first with
  | here => exact second
  | cross bound _ onward => exact .cross bound (onward second)

/-- A term that is not a bound variable leads only to itself. -/
theorem Leads.eq_of_binding?_eq_none {start stop : Term A} (leads : bindings.Leads start stop)
    (resolved : bindings.binding? start = none) : start = stop := by
  cases leads with
  | here => rfl
  | cross bound _ => exact nomatch resolved.symm.trans bound

/-- A term leads to no more than one term that is not a bound variable. -/
theorem Leads.stop_unique {start stop other : Term A} (leads : bindings.Leads start stop)
    (resolved : bindings.binding? stop = none) (otherLeads : bindings.Leads start other)
    (otherResolved : bindings.binding? other = none) : stop = other := by
  induction leads with
  | here => exact otherLeads.eq_of_binding?_eq_none resolved
  | cross bound _ onward =>
    cases otherLeads with
    | here => exact nomatch otherResolved.symm.trans bound
    | cross otherBound otherOnward =>
      cases Option.some.inj (bound.symm.trans otherBound)
      exact onward resolved otherOnward

/-- Where following bindings ends there is none. -/
theorem binding?_of_follow? {limit : Nat} {term stop : Term A}
    (followed : bindings.follow? limit term = some stop) : bindings.binding? stop = none := by
  induction limit generalizing term with
  | zero =>
    cases bound : bindings.binding? term with
    | none =>
      rw [follow?, bound] at followed
      exact Option.some.inj followed ▸ bound
    | some next =>
      rw [follow?, bound] at followed
      cases followed
  | succ limit further =>
    cases bound : bindings.binding? term with
    | none =>
      rw [follow?, bound] at followed
      exact Option.some.inj followed ▸ bound
    | some next =>
      rw [follow?, bound] at followed
      exact further followed

/-- Walking from a term that is not a bound variable goes nowhere. -/
theorem walk_of_binding?_eq_none {term : Term A} (resolved : bindings.binding? term = none) :
    bindings.walk term = term := by
  rw [walk, walk?]
  cases bindings.size <;> rw [follow?, resolved, Option.getD_some]

/-- Walking from a term that is no variable goes nowhere. -/
theorem walk_of_not_isVar {term : Term A} (rigid : term.isVar = false) :
    bindings.walk term = term := by
  cases term with
  | var => cases rigid
  | atom | op => exact walk_of_binding?_eq_none rfl

/-- Walking from where walking ends goes nowhere. -/
theorem walk_of_walk? {term stop : Term A} (walked : bindings.walk? term = some stop) :
    bindings.walk stop = stop :=
  walk_of_binding?_eq_none (binding?_of_follow? walked)

namespace Acyclic

/-- Walking ends. -/
theorem walk?_eq (acyclic : bindings.Acyclic) (term : Term A) :
    bindings.walk? term = some (bindings.walk term) := by
  obtain ⟨stop, walked, _, _⟩ := acyclic.exists_walk? term
  rw [walk, walked, Option.getD_some]

/-- A term leads to where walking from it ends, and there is no binding there. -/
theorem leads_walk (acyclic : bindings.Acyclic) (term : Term A) :
    bindings.Leads term (bindings.walk term) ∧ bindings.binding? (bindings.walk term) = none := by
  obtain ⟨stop, walked, leads, resolved⟩ := acyclic.exists_walk? term
  rw [walk, walked, Option.getD_some]
  exact ⟨leads, resolved⟩

/-- Walking ends at the term without a binding that a term leads to. -/
theorem walk_eq_of_leads (acyclic : bindings.Acyclic) {start stop : Term A}
    (leads : bindings.Leads start stop) (resolved : bindings.binding? stop = none) :
    bindings.walk start = stop :=
  (acyclic.leads_walk start).1.stop_unique (acyclic.leads_walk start).2 leads resolved

/-- Walking from a term ends where walking from a term that it leads to ends. -/
theorem walk_congr_of_leads (acyclic : bindings.Acyclic) {start stop : Term A}
    (leads : bindings.Leads start stop) : bindings.walk start = bindings.walk stop :=
  acyclic.walk_eq_of_leads (leads.trans (acyclic.leads_walk stop).1) (acyclic.leads_walk stop).2

/-- A variable that walking ends at has no binding. -/
theorem get?_eq_none_of_walk (acyclic : bindings.Acyclic) {term : Term A} {index : UInt64}
    (walked : bindings.walk term = .var index) : bindings.get? index = none := by
  have resolved := (acyclic.leads_walk term).2
  rwa [walked] at resolved

/-- Under one more binding walking goes on from the variable that is bound to the term that it is
bound to, and ends where it did before for all other terms. -/
theorem walk_insert (acyclic : bindings.Acyclic) {index : UInt64} {value : Term A}
    (unbound : bindings.get? index = none) (resolved : bindings.binding? value = none)
    (different : value ≠ .var index)
    (inserted : Acyclic (IntMap.insert bindings index value)) (term : Term A) :
    walk (IntMap.insert bindings index value) term =
      if (bindings.walk term).index? = some index then value else bindings.walk term := by
  have kept : bindings.Extends (IntMap.insert bindings index value) := extends_insert unbound
  have leads := (acyclic.leads_walk term).1.extend kept
  have stays : ∀ stop : Term A, bindings.binding? stop = none → stop.index? ≠ some index →
      binding? (IntMap.insert bindings index value) stop = none := by
    intro stop free other
    cases stop with
    | var inner =>
      have apart : inner ≠ index := fun same => other (congrArg some same)
      rw [binding?, IntMap.get?_insert, if_neg apart]
      exact free
    | atom | op => rfl
  split
  · next here =>
    have reached : bindings.walk term = .var index := by
      cases walked : bindings.walk term with
      | var inner =>
        rw [walked] at here
        exact congrArg Term.var (Option.some.inj here)
      | atom | op =>
        rw [walked] at here
        cases here
    have onward : Leads (IntMap.insert bindings index value) (.var index) value :=
      .cross (by rw [IntMap.get?_insert, if_pos rfl]) (.here value)
    refine inserted.walk_eq_of_leads ((reached ▸ leads).trans onward) (stays value resolved ?_)
    intro same
    cases value with
    | var inner => exact different (congrArg Term.var (Option.some.inj same))
    | atom | op => cases same
  · next elsewhere =>
    exact inserted.walk_eq_of_leads leads (stays _ (acyclic.leads_walk term).2 elsewhere)

/-- Terms resolve to what the terms they lead to resolve to. -/
theorem reify_eq_of_leads (acyclic : bindings.Acyclic) {start stop : Term A}
    (leads : bindings.Leads start stop) : bindings.reify start = bindings.reify stop := by
  simp only [acyclic.reify_eq_bind]
  induction leads with
  | here => rfl
  | cross bound _ same => rw [Term.bind_var, acyclic.value_of_get?_eq_some bound, same]

/-- A term resolves as the term that walking from it ends at. -/
theorem reify_walk (acyclic : bindings.Acyclic) (term : Term A) :
    bindings.reify (bindings.walk term) = bindings.reify term :=
  (acyclic.reify_eq_of_leads (acyclic.leads_walk term).1).symm

/-- A term from which walking ends at a variable resolves to the variable. -/
theorem reify_of_walk_var (acyclic : bindings.Acyclic) {term : Term A} {index : UInt64}
    (walked : bindings.walk term = .var index) : bindings.reify term = .var index := by
  rw [← acyclic.reify_walk, walked]
  exact value_of_get?_eq_none (acyclic.get?_eq_none_of_walk walked)

/-- A term from which walking ends at an atom resolves to the atom. -/
theorem reify_of_walk_atom (acyclic : bindings.Acyclic) {term : Term A} {payload : A}
    (walked : bindings.walk term = .atom payload) : bindings.reify term = .atom payload := by
  rw [← acyclic.reify_walk, walked, acyclic.reify_eq_bind, Term.bind_atom]

/-- A term from which walking ends at an operation resolves to the operation of what its arguments
resolve to. -/
theorem reify_of_walk_op (acyclic : bindings.Acyclic) {term : Term A} {symbol : String}
    {arguments : List (Term A)} (walked : bindings.walk term = .op symbol arguments) :
    bindings.reify term = .op symbol (arguments.map bindings.reify) := by
  rw [← acyclic.reify_walk, walked, acyclic.reify_eq_bind, Term.bind_op]
  exact congrArg _ (List.map_congr_left fun argument _ => (acyclic.reify_eq_bind argument).symm)

end Acyclic

/-!
## Resolving under more and more bindings

What a term resolves to under some bindings has no bound variables left, so resolving it again
changes nothing; and under further bindings it resolves to what the term resolves to under them.
A term can thus be resolved early or late. The induction is on the bindings that come first: a
variable without a binding there is its own value, and the value of a bound one is made of values
of the variables that it leads to.
-/

/-- Terms that were resolved under some bindings may be resolved further under others. -/
structure Resumes (bindings after : Substitution A) : Prop where
  /-- Resolving ends under the bindings. -/
  reify?_before : ∀ term, bindings.reify? term = some (bindings.reify term)
  /-- Resolving ends under the other bindings. -/
  reify?_after : ∀ term, after.reify? term = some (after.reify term)
  /-- Walking ends under the bindings. -/
  walk?_before : ∀ term, bindings.walk? term = some (bindings.walk term)
  /-- Walking ends under the other bindings. -/
  walk?_after : ∀ term, after.walk? term = some (after.walk term)
  /-- No bound variable is left in a resolved term. -/
  unbound : ∀ term, ∀ index ∈ (bindings.reify term).vars, bindings.get? index = none
  /-- To resolve a resolved term again changes nothing. -/
  again : ∀ term, bindings.reify (bindings.reify term) = bindings.reify term
  /-- A resolved term resolves further to what the term resolves to. -/
  reify : ∀ term, after.reify (bindings.reify term) = after.reify term
  /-- Walking further ends where walking ends. -/
  walk : ∀ term, after.walk (bindings.walk term) = after.walk term

namespace Acyclic

/-- No bound variable is left in a resolved term. -/
theorem get?_eq_none_of_mem_reify (acyclic : bindings.Acyclic) {term : Term A} {index : UInt64}
    (appears : index ∈ (bindings.reify term).vars) : bindings.get? index = none := by
  rw [acyclic.reify_eq_bind, Term.mem_vars_bind] at appears
  obtain ⟨other, _, inside⟩ := appears
  exact acyclic.get?_eq_none_of_mem_value inside

/-- The value of a variable takes under further bindings the value that the variable has there. -/
theorem bind_value (acyclic : bindings.Acyclic) (afterAcyclic : after.Acyclic)
    (extends_ : bindings.Extends after) (index : UInt64) :
    (bindings.value index).bind after.value = after.value index := by
  induction index using acyclic.induct with
  | step index ih =>
    cases bound : bindings.get? index with
    | none => rw [value_of_get?_eq_none bound, Term.bind_var]
    | some term =>
      calc
        (bindings.value index).bind after.value
            = term.bind fun other => (bindings.value other).bind after.value := by
          rw [acyclic.value_of_get?_eq_some bound, Term.bind_bind]
        _ = term.bind after.value := Term.bind_congr (ih term bound)
        _ = after.value index :=
          (afterAcyclic.value_of_get?_eq_some (extends_ index term bound)).symm

/-- A resolved term resolves under further bindings to what the term resolves to. -/
theorem reify_reify (acyclic : bindings.Acyclic) (afterAcyclic : after.Acyclic)
    (extends_ : bindings.Extends after) (term : Term A) :
    after.reify (bindings.reify term) = after.reify term := by
  rw [acyclic.reify_eq_bind, afterAcyclic.reify_eq_bind, afterAcyclic.reify_eq_bind, Term.bind_bind]
  exact Term.bind_congr fun index _ => acyclic.bind_value afterAcyclic extends_ index

/-- Walking on under further bindings ends where walking under them ends. -/
theorem walk_walk (acyclic : bindings.Acyclic) (afterAcyclic : after.Acyclic)
    (extends_ : bindings.Extends after) (term : Term A) :
    after.walk (bindings.walk term) = after.walk term := by
  have leads := (acyclic.leads_walk term).1.extend extends_
  exact (afterAcyclic.walk_congr_of_leads leads).symm

/-- What acyclic bindings resolve may be resolved further under acyclic bindings that extend
them. -/
theorem resumes (acyclic : bindings.Acyclic) (afterAcyclic : after.Acyclic)
    (extends_ : bindings.Extends after) : bindings.Resumes after where
  reify?_before := acyclic.reify?_eq
  reify?_after := afterAcyclic.reify?_eq
  walk?_before := acyclic.walk?_eq
  walk?_after := afterAcyclic.walk?_eq
  unbound _ _ appears := acyclic.get?_eq_none_of_mem_reify appears
  again := acyclic.reify_reify acyclic (.refl bindings)
  reify := acyclic.reify_reify afterAcyclic extends_
  walk := acyclic.walk_walk afterAcyclic extends_

end Acyclic

end Relational.Substitution
