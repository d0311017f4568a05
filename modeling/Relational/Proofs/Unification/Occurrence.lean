import Relational.Proofs.Substitution.Walking
import Relational.Proofs.Unification.Loop

/-!
# The occurs check is exact

A variable appears in what a term resolves to if it has no binding and is in the term or at the end
of a way of bindings from there. The occurs check searches for it on a stack of terms, in another
order than resolving goes over them, and comes to the same. So it lets through exactly the bindings
that close no cycle.
-/
namespace Relational.Substitution

universe u

variable {A : Type u} {bindings : Substitution A}

namespace Acyclic

/-- A variable appears in the value of another if it is that variable or reached from it and has no
binding. -/
theorem mem_vars_value_iff (acyclic : bindings.Acyclic) {index other : UInt64} :
    index ∈ (bindings.value other).vars ↔
      bindings.get? index = none ∧ (other = index ∨ bindings.Reaches other index) := by
  constructor
  · intro appears
    refine ⟨acyclic.get?_eq_none_of_mem_value appears, ?_⟩
    induction other using acyclic.induct with
    | step other further =>
      cases bound : bindings.get? other with
      | none =>
        rw [value_of_get?_eq_none bound, Term.vars_var, List.mem_singleton] at appears
        exact .inl appears.symm
      | some term =>
        rw [acyclic.value_of_get?_eq_some bound, Term.mem_vars_bind] at appears
        obtain ⟨next, inside, appears⟩ := appears
        have first : bindings.Reaches other next := .direct bound inside
        rcases further term bound next inside appears with rfl | onward
        · exact .inr first
        · exact .inr (first.trans onward)
  · rintro ⟨unbound, rfl | way⟩
    · rw [value_of_get?_eq_none unbound, Term.vars_var, List.mem_singleton]
    · apply acyclic.vars_value_subset way
      rw [value_of_get?_eq_none unbound, Term.vars_var, List.mem_singleton]

/-- A variable appears in a resolved term if it has no binding and is in the term or reached from a
variable in it. -/
theorem mem_vars_reify_iff (acyclic : bindings.Acyclic) {index : UInt64} {term : Term A} :
    index ∈ (bindings.reify term).vars ↔
      bindings.get? index = none ∧
        ∃ other ∈ term.vars, other = index ∨ bindings.Reaches other index := by
  rw [acyclic.reify_eq_bind, Term.mem_vars_bind]
  simp only [acyclic.mem_vars_value_iff]
  constructor
  · rintro ⟨other, inside, unbound, way⟩
    exact ⟨unbound, other, inside, way⟩
  · rintro ⟨unbound, other, inside, way⟩
    exact ⟨other, inside, unbound, way⟩

/-- The occurs check never finds a bound variable. -/
theorem occurs_of_bound (acyclic : bindings.Acyclic) {index : UInt64} {value : Term A}
    (bound : bindings.get? index = some value) (term : Term A) :
    bindings.occurs index term = false := by
  rw [acyclic.occurs_eq, decide_eq_false_iff_not]
  intro appears
  rw [acyclic.get?_eq_none_of_mem_reify appears] at bound
  cases bound

/-- A variable without a binding may be bound to a term without closing a cycle exactly if the
occurs check does not find it there. -/
theorem insert_iff (acyclic : bindings.Acyclic) {index : UInt64} {term : Term A}
    (unbound : bindings.get? index = none) :
    Acyclic (IntMap.insert bindings index term) ↔ bindings.occurs index term = false := by
  refine ⟨fun stays => ?_, acyclic.insert_of_occurs unbound⟩
  rw [acyclic.occurs_eq, decide_eq_false_iff_not, acyclic.mem_vars_reify_iff]
  rintro ⟨_, other, inside, way⟩
  have new : Reaches (IntMap.insert bindings index term) index other :=
    .direct (by rw [IntMap.get?_insert, if_pos rfl]) inside
  rcases way with rfl | way
  · exact stays _ new
  · exact stays index (new.trans (way.extend (extends_insert unbound)))

/-- The recursion of resolving comes to one result only. -/
theorem eq_reify_of_reifies (acyclic : bindings.Acyclic) {term resolved : Term A}
    (reifies : bindings.Reifies term resolved) : resolved = bindings.reify term := by
  generalize weighs : bindings.weight term = total
  induction total using Nat.strong_induction_on generalizing term resolved with
  | _ total lighter =>
    cases reifies with
    | var walked => exact (acyclic.reify_of_walk_var walked).symm
    | atom walked => exact (acyclic.reify_of_walk_atom walked).symm
    | @op _ symbol arguments results walked each =>
      rw [acyclic.reify_of_walk_op walked]
      have weight := acyclic.weight_of_walk_op walked
      have light : ∀ argument ∈ arguments, bindings.weight argument < total := by
        intro argument member
        have part : bindings.weight argument ≤ (arguments.map bindings.weight).sum :=
          List.le_sum_of_mem (List.mem_map_of_mem member)
        omega
      congr 1
      clear walked weight
      induction each with
      | nil => rfl
      | cons first _ later =>
        rw [List.map_cons, ← lighter _ (light _ (List.mem_cons_self ..)) first rfl,
          ← later fun argument member => light argument (List.mem_cons_of_mem _ member)]

/-- Under acyclic bindings the loop of the occurs check ends and finds any variable, bound or not,
in any term exactly if it appears in what the recursion of resolving makes of the term. -/
theorem occurs_iff_appears (acyclic : bindings.Acyclic) (index : UInt64) (term : Term A) :
    ∃ found resolved,
      (Loop.Ends (fun state outcome => bindings.occursPass index state = outcome) found [term] ∧
        bindings.occurs? index term = some found ∧ bindings.occurs index term = found) ∧
      ((∀ other, bindings.Reifies term other ↔ other = resolved) ∧
        bindings.reify? term = some resolved ∧ bindings.reify term = resolved) ∧
      (found = true ↔ index ∈ resolved.vars) := by
  refine ⟨bindings.occurs index term, bindings.reify term,
    ⟨acyclic.occurs_ends index term, acyclic.occurs?_eq_some index term, rfl⟩,
    ⟨fun other => ?_, acyclic.reify?_eq term, rfl⟩, ?_⟩
  · refine ⟨acyclic.eq_reify_of_reifies, ?_⟩
    rintro rfl
    exact acyclic.reifies term
  · rw [acyclic.occurs_eq, decide_eq_true_iff]

end Acyclic

/-- With `v1` bound to `g(v0, v2)` and `v2` to `5`, the occurs check finds `v0` in `f(v2, v1)`,
which resolves to `f(5, g(v0, 5))`, and does not find `v2` there. -/
theorem occurs_behind_binding :
    let bindings : Substitution Int64 :=
      (IntMap.insert IntMap.empty 1 (.op "g" [.var 0, .var 2])).insert 2 (.atom 5)
    let term : Term Int64 := .op "f" [.var 2, .var 1]
    bindings.Acyclic ∧
      bindings.reify term = .op "f" [.atom 5, .op "g" [.var 0, .atom 5]] ∧
        bindings.occurs 0 term = true ∧ bindings.occurs 2 term = false := by
  intro bindings term
  have inner : Acyclic (IntMap.insert IntMap.empty 1 (.op "g" [.var 0, .var 2] : Term Int64)) :=
    acyclic_empty.insert_of_occurs (IntMap.get?_empty 1) (by cbv)
  have free : (IntMap.insert IntMap.empty 1
      (.op "g" [.var 0, .var 2] : Term Int64)).get? 2 = none := by
    rw [IntMap.get?_insert, if_neg (by decide), IntMap.get?_empty]
  have acyclic : bindings.Acyclic := inner.insert_of_occurs free (by cbv)
  have resolves : bindings.reify term = .op "f" [.atom 5, .op "g" [.var 0, .atom 5]] := by cbv
  obtain ⟨found, resolved, ⟨_, _, inside⟩, ⟨_, _, resolution⟩, present⟩ :=
    acyclic.occurs_iff_appears 0 term
  obtain ⟨missed, _, ⟨_, _, outside⟩, ⟨_, _, again⟩, absent⟩ := acyclic.occurs_iff_appears 2 term
  rw [← resolution, resolves, ← inside] at present
  rw [← again, resolves, ← outside] at absent
  refine ⟨acyclic, resolves, present.mpr (by simp), ?_⟩
  rw [Bool.eq_false_iff]
  exact fun there => absurd (absent.mp there) (by simp)

end Relational.Substitution
