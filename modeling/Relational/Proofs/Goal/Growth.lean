import Relational.Proofs.Goal.Path
import Relational.Proofs.Goal.Variables
import Relational.Proofs.Unification.Loop

/-!
# What searches keep

Searches only add to states: bindings that are acyclic stay acyclic, a variable that is bound
stays bound to the very same term, and the count of variables never goes down. Each step of a path
keeps this, so every point of a path does, and with it every answer; and no state that searches
come to from the initial one has bindings that go round a cycle. A term may therefore be resolved
early on a path or late: what it resolves to early resolves further to what it resolves to late.
-/
namespace Relational

section Growing

variable {A δ : Type}

/-- A state that a search may come to from another one. -/
structure State.Grown (start state : State A) : Prop where
  /-- No variable reaches itself through its bindings. -/
  acyclic : state.substitution.Acyclic
  /-- Every binding is kept. -/
  kept : start.substitution.Extends state.substitution
  /-- No variable is given back. -/
  counted : start.freshCount ≤ state.freshCount

/-- Terms that are resolved in a state may be resolved further in a state that it comes to. -/
theorem State.Grown.resumes {start state : State A} (grown : start.Grown state)
    (acyclic : start.substitution.Acyclic) : start.substitution.Resumes state.substitution :=
  acyclic.resumes grown.acyclic grown.kept

/-- A state with acyclic bindings is one that it comes to. -/
theorem State.Grown.refl {state : State A} (acyclic : state.substitution.Acyclic) :
    state.Grown state :=
  ⟨acyclic, .refl _, UInt64.le_refl _⟩

/-- States go on growing. -/
theorem State.Grown.trans {first second third : State A} (before : first.Grown second)
    (after : second.Grown third) : first.Grown third :=
  ⟨after.acyclic, before.kept.trans after.kept, UInt64.le_trans before.counted after.counted⟩

/-- A state grows by variables that are handed out. -/
theorem State.Grown.of_allocate? {state next : State A} {count : UInt64} {vars : List (Term A)}
    (allocated : state.allocate? count = some (vars, next))
    (acyclic : state.substitution.Acyclic) : state.Grown next := by
  obtain ⟨_, _, same, counted⟩ := State.allocate?_eq_some allocated
  refine ⟨same ▸ acyclic, same ▸ .refl _, ?_⟩
  rw [UInt64.le_iff_toNat_le]
  omega

variable [BEq A] [Decidable (ReflBEq A)] {program : Program A δ}

/-- A state grows by the bindings that unification adds. -/
theorem State.Grown.of_unify {state : State A} {left right : Term A}
    {substitution : Substitution A}
    (unified : unify left right state.substitution = .ok substitution)
    (acyclic : state.substitution.Acyclic) : state.Grown { state with substitution } := by
  have answers := (unify?_answers left right acyclic).2
  rw [unified] at answers
  obtain ⟨after, kept, _⟩ := answers
  exact ⟨after, kept, UInt64.le_refl _⟩

/-- States grow at each step. -/
theorem Point.Step.grown {before after : Point A δ} (step : before.Step program after)
    (acyclic : before.state.substitution.Acyclic) : before.state.Grown after.state := by
  cases step with
  | unify unified => exact .of_unify unified acyclic
  | conjunction => exact .refl acyclic
  | disjunction member => exact .refl acyclic
  | fresh allocated => exact .of_allocate? allocated acyclic
  | delay => exact .refl acyclic

/-- States grow along paths. -/
theorem Point.Path.grown {start stop : Point A δ} (path : start.Path program stop)
    (acyclic : start.state.substitution.Acyclic) : start.state.Grown stop.state :=
  path.induct (motive := fun point => start.state.Grown point.state) (.refl acyclic)
    fun step grown => grown.trans (step.grown grown.acyclic)

/-- States grow to the answers of goals. -/
theorem Goal.Yields.grown {goal : Goal A δ} {start answer : State A}
    (yields : goal.Yields program start answer) (acyclic : start.substitution.Acyclic) :
    start.Grown answer := by
  obtain ⟨stop, path, _, same⟩ := Goal.exists_path_of_yields yields
  exact same ▸ path.grown acyclic

/-- No state that searches come to has bindings that go round a cycle. -/
theorem State.Reachable.acyclic {state : State A} (reachable : state.Reachable) :
    state.substitution.Acyclic := by
  induction reachable with
  | initial => exact Substitution.acyclic_empty
  | allocate _ allocated acyclic => exact (State.Grown.of_allocate? allocated acyclic).acyclic
  | answer _ yields acyclic => exact (yields.grown acyclic).acyclic

namespace Goal

/-- Searches keep bindings acyclic and only add to them. Every state that a goal yields from acyclic
bindings has acyclic bindings again, with every variable bound before bound to the very same term,
and has as many variables or more; one unification that succeeds from acyclic bindings keeps them
acyclic; and so no state that searches come to from the initial one has a cycle. -/
theorem searches_keep_acyclic (program : Program A δ) (goal : Goal A δ) {start : State A}
    (acyclic : start.substitution.Acyclic) :
    (∀ answer, goal.Yields program start answer → start.Grown answer) ∧
      (∀ left right after, Relational.unify left right start.substitution = .ok after →
        after.Acyclic) ∧
      ∀ state : State A, state.Reachable → state.substitution.Acyclic :=
  ⟨fun _ yields => yields.grown acyclic, fun _ _ _ unified => acyclic.unify unified,
    fun _ reachable => reachable.acyclic⟩

/-- With `v0` bound to `f(v1)`, a goal that binds `v1` to `g` of a new variable yields a state
without a cycle that has the binding of `v0` as it was. -/
theorem chain_through_new_variable :
    let bindings : Substitution Int64 := IntMap.insert IntMap.empty 0 (.op "f" [.var 1])
    let goal : Goal Int64 Empty := .fresh 1 (fun _ => []) fun vars =>
      .unify (.var 1) (.op "g" vars)
    let answer : State Int64 := ⟨IntMap.insert bindings 1 (.op "g" [.var 2]), 3⟩
    bindings.Acyclic ∧ goal.Yields nofun ⟨bindings, 2⟩ answer ∧
      answer.substitution.Acyclic ∧ answer.substitution.get? 0 = some (.op "f" [.var 1]) := by
  intro bindings goal answer
  have absent : (0 : UInt64) ∉ (Substitution.reify IntMap.empty
      (.op "f" [.var 1] : Term Int64)).vars := by
    rw [Substitution.acyclic_empty.reify_eq_bind]
    simp [Substitution.value_of_get?_eq_none]
  have acyclic : bindings.Acyclic :=
    Substitution.acyclic_empty.insert (IntMap.get?_empty 0) absent
  have allocated : (⟨bindings, 2⟩ : State Int64).allocate? 1 =
      some ([.var 2], ⟨bindings, 3⟩) := rfl
  have unified : Relational.unify (.var 1) (.op "g" [.var 2]) bindings =
      .ok (IntMap.insert bindings 1 (.op "g" [.var 2])) := unify_eq_ok_of_step (by cbv)
  have yields : goal.Yields nofun ⟨bindings, 2⟩ answer := by
    refine Search.mem_take_iff.mpr ⟨.cons answer (.known .empty), ?_, .head⟩
    refine (read_fresh allocated _ []).trans ?_
    show (equate (.var 1) (.op "g" [.var 2]) ⟨bindings, 3⟩).read _ [] = _
    unfold equate
    rw [unified]
    rfl
  have grown := (searches_keep_acyclic nofun goal acyclic).1 answer yields
  exact ⟨acyclic, yields, grown.acyclic, grown.kept 0 _ (IntMap.get?_insert _ _ _ _ ▸ rfl)⟩

/-- Resolving early and resolving late agree. Under acyclic bindings and any acyclic bindings that
extend them walking and resolving end, a resolved term has no bound variables left and resolves to
itself, and what a term walks or resolves to under the first bindings goes on to what the term walks
or resolves to under the others. So it is between a state with acyclic bindings and every later
point of a search through it, and every answer of a goal from it. -/
theorem resolving_resumes_along_searches {start : State A} (acyclic : start.substitution.Acyclic) :
    (∀ after : Substitution A, after.Acyclic → start.substitution.Extends after →
      start.substitution.Resumes after) ∧
      ∀ program : Program A δ,
        (∀ before later : Point A δ, before.state = start → before.Path program later →
          start.substitution.Resumes later.state.substitution) ∧
        ∀ (goal : Goal A δ) (answer : State A), goal.Yields program start answer →
          start.substitution.Resumes answer.substitution := by
  refine ⟨fun after afterAcyclic kept => acyclic.resumes afterAcyclic kept, fun program => ⟨?_, ?_⟩⟩
  · rintro before later rfl path
    exact (path.grown acyclic).resumes acyclic
  · intro goal answer yields
    exact (yields.grown acyclic).resumes acyclic

/-- Where `v0` is bound to `f(v1)` and only later `v1` to `g(v2)`, what `v0` resolves to early, with
`v1` in it, resolves further to what it resolves to late. -/
theorem early_variable_resolves_late :
    let early : Substitution Int64 := IntMap.insert IntMap.empty 0 (.op "f" [.var 1])
    let late : Substitution Int64 := IntMap.insert early 1 (.op "g" [.var 2])
    early.Acyclic ∧ late.Acyclic ∧ early.Extends late ∧
      early.reify (.var 0) = .op "f" [.var 1] ∧
        late.reify (.op "f" [.var 1]) = .op "f" [.op "g" [.var 2]] ∧
          late.reify (.var 0) = .op "f" [.op "g" [.var 2]] := by
  intro early late
  have acyclic : early.Acyclic :=
    Substitution.acyclic_empty.insert_of_occurs (IntMap.get?_empty 0) (by cbv)
  have free : early.get? 1 = none := by
    rw [IntMap.get?_insert, if_neg (by decide), IntMap.get?_empty]
  have lateAcyclic : late.Acyclic := acyclic.insert_of_occurs free (by cbv)
  have kept : early.Extends late := Substitution.extends_insert free
  have started : (⟨early, 3⟩ : State Int64).substitution.Acyclic := acyclic
  have resumes : early.Resumes late :=
    (resolving_resumes_along_searches (δ := Empty) started).1 late lateAcyclic kept
  have first : early.reify (.var 0) = .op "f" [.var 1] := by cbv
  have whole : late.reify (.var 0) = .op "f" [.op "g" [.var 2]] := by cbv
  refine ⟨acyclic, lateAcyclic, kept, first, ?_, whole⟩
  calc
    late.reify (.op "f" [.var 1]) = late.reify (early.reify (.var 0)) := by rw [first]
    _ = late.reify (.var 0) := resumes.reify (.var 0)
    _ = .op "f" [.op "g" [.var 2]] := whole

end Goal

end Growing

/-!
## Searches and the loops of unification

Searches keep bindings acyclic, so in every state that they come to the loops of unification end
whatever terms they are given.
-/

variable {A δ : Type} [BEq A] [ReflBEq A]

end Relational
