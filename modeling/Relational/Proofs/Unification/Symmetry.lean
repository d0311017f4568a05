import Mathlib.Data.Set.Function
import Relational.Proofs.Unification.Recursion

/-!
# Unification in the other order

Two runs of the loop, one for two terms and one for the same terms in the other order, keep in step.
Walking ends at the same atom or operation in both, literally, or at open variables that correspond
to each other. So both runs find the same clash, take the same operations apart, or bind variables
that correspond; where both sides are variables they bind different ones, and the one that stays
open takes over the name of the other (`InStep.bindVar`).
-/
namespace Relational

/-!
## Mirrored answers

Two terms may be unified in either order. Of two variables the left one is bound, so in the other
order another variable stays open and stands for both; what is said about clashes has left and right
exchanged. Here is what it takes for two answers to say the same all the same.
-/

universe u

variable {A : Type u}

/-- The term with other variables in the places of its variables. -/
def Term.rename (name : UInt64 → UInt64) (term : Term A) : Term A :=
  term.bind fun index => .var (name index)

/-- The variables without a binding. -/
def Substitution.openVars (bindings : Substitution A) : Set UInt64 :=
  {index | bindings.get? index = none}

/-- Some bindings are others up to names. There are as many, the open variables of the ones are
those of the others under other names, and every term resolves to the same under these names. -/
structure Substitution.Renames (name : UInt64 → UInt64) (bindings others : Substitution A) :
    Prop where
  /-- There are as many bindings. -/
  size : bindings.size = others.size
  /-- Every open variable of the others has one name, and different variables have different
  ones. -/
  bijective : Set.BijOn name bindings.openVars others.openVars
  /-- Terms resolve to the same up to names. -/
  reify : ∀ term, ∃ value, bindings.reify? term = some value ∧
    others.reify? term = some (value.rename name)

/-- One clash says the same as another with left and right exchanged, but occurs checks may fail at
different variables. -/
def Clash.Mirrors (reason other : Clash) : Prop :=
  other = reason.swap ∨
    ∃ index otherIndex, reason = .occursCheck index ∧ other = .occursCheck otherIndex

/-- Two answers are bindings that are the same up to names, or clashes that say the same with left
and right exchanged. -/
def Unification.Mirrored :
    Except Clash (Substitution A) → Except Clash (Substitution A) → Prop
  | .ok bindings, .ok others => ∃ name, bindings.Renames name others
  | .error reason, .error other => reason.Mirrors other
  | _, _ => False

/-! ## Runs in step -/

namespace Term

/-- The term under other names at its head. -/
def renameHead (name : UInt64 → UInt64) : Term A → Term A
  | var index => var (name index)
  | atom payload => atom payload
  | op symbol arguments => op symbol arguments

/-- A variable is its head. -/
theorem renameHead_var (name : UInt64 → UInt64) (index : UInt64) :
    (var index : Term A).renameHead name = var (name index) := rfl

/-- A term that is no variable has the same head under other names. -/
theorem renameHead_of_not_isVar (name : UInt64 → UInt64) {term : Term A}
    (rigid : term.isVar = false) : term.renameHead name = term := by
  cases term with
  | var => cases rigid
  | atom | op => rfl

/-- An operation is renamed in its arguments. -/
theorem rename_op (name : UInt64 → UInt64) (symbol : String) (arguments : List (Term A)) :
    (op symbol arguments).rename name = op symbol (arguments.map (rename name)) :=
  bind_op _ symbol arguments

/-- The variables of a renamed term are the names of the variables. -/
theorem mem_vars_rename {name : UInt64 → UInt64} {term : Term A} {index : UInt64} :
    index ∈ (term.rename name).vars ↔ ∃ other ∈ term.vars, index = name other := by
  simp [rename, mem_vars_bind]

end Term

namespace Substitution

variable {bindings mirrored : Substitution A} {name : UInt64 → UInt64}

/-- A binding takes a variable from the open ones. -/
theorem openVars_insert (bindings : Substitution A) (index : UInt64) (term : Term A) :
    openVars (IntMap.insert bindings index term) = bindings.openVars \ {index} := by
  ext other
  rw [openVars, Set.mem_ofPred_eq, IntMap.get?_insert, Set.mem_sdiff, Set.mem_singleton_iff]
  by_cases same : other = index
  · simp [same]
  · simp [same, openVars]

/-- There are as many bindings where there are as many open variables. -/
theorem size_eq_of_openVars (same : bindings.openVars.ncard = mirrored.openVars.ncard) :
    bindings.size = mirrored.size := by
  have split : ∀ others : Substitution A,
      others.size + others.openVars.ncard = Nat.card UInt64 := by
    intro others
    have closed : others.openVarsᶜ = {index | (others.get? index).isSome} := by
      ext index
      simp [openVars, Option.isSome_iff_ne_none]
    rw [IntMap.size_eq_ncard, ← closed, Nat.add_comm]
    exact Set.ncard_add_ncard_compl others.openVars
  have here := split bindings
  have there := split mirrored
  omega

/-- A variable does not occur in another one that is open. -/
theorem Acyclic.occurs_var (acyclic : bindings.Acyclic) {index other : UInt64}
    (free : other ∈ bindings.openVars) (different : index ≠ other) :
    bindings.occurs index (.var other) = false := by
  have resolved : bindings.reify (.var other) = .var other := value_of_get?_eq_none free
  rw [acyclic.occurs_eq, resolved]
  simpa using different

/-- Two runs are in step: walking ends at corresponding variables or at the same term. -/
structure InStep (name : UInt64 → UInt64) (bindings mirrored : Substitution A) : Prop where
  /-- The bindings of the one run are acyclic. -/
  acyclic : bindings.Acyclic
  /-- The bindings of the other run are acyclic. -/
  mirroredAcyclic : mirrored.Acyclic
  /-- The open variables correspond to each other. -/
  bijective : Set.BijOn name bindings.openVars mirrored.openVars
  /-- Walking ends at corresponding places. -/
  walk : ∀ term, mirrored.walk term = (bindings.walk term).renameHead name

/-- Two runs begin in step. -/
theorem InStep.refl (acyclic : bindings.Acyclic) : InStep id bindings bindings where
  acyclic := acyclic
  mirroredAcyclic := acyclic
  bijective := Set.bijOn_id _
  walk term := by cases bindings.walk term <;> rfl

namespace InStep

/-- In step, terms resolve to the same up to names. -/
theorem reify (inStep : InStep name bindings mirrored) (term : Term A) :
    mirrored.reify term = (bindings.reify term).rename name := by
  generalize weighs : bindings.weight term = total
  induction total using Nat.strong_induction_on generalizing term with
  | _ total lighter =>
    have same := inStep.walk term
    cases walked : bindings.walk term with
    | var index =>
      rw [walked] at same
      rw [inStep.acyclic.reify_of_walk_var walked, inStep.mirroredAcyclic.reify_of_walk_var same,
        Term.rename, Term.bind_var]
    | atom payload =>
      rw [walked] at same
      rw [inStep.acyclic.reify_of_walk_atom walked, inStep.mirroredAcyclic.reify_of_walk_atom same,
        Term.rename, Term.bind_atom]
    | op symbol arguments =>
      rw [walked] at same
      rw [inStep.acyclic.reify_of_walk_op walked, inStep.mirroredAcyclic.reify_of_walk_op same,
        Term.rename_op, List.map_map]
      congr 1
      apply List.map_congr_left
      intro argument member
      have weight := inStep.acyclic.weight_of_walk_op walked
      have part : bindings.weight argument ≤ (arguments.map bindings.weight).sum :=
        List.le_sum_of_mem (List.mem_map_of_mem member)
      exact lighter _ (by omega) argument rfl

/-- In step, the occurs check says the same for corresponding variables. -/
theorem occurs (inStep : InStep name bindings mirrored) {index : UInt64}
    (free : index ∈ bindings.openVars) (term : Term A) :
    mirrored.occurs (name index) term = bindings.occurs index term := by
  rw [inStep.acyclic.occurs_eq, inStep.mirroredAcyclic.occurs_eq, decide_eq_decide, inStep.reify,
    Term.mem_vars_rename]
  constructor
  · rintro ⟨other, appears, same⟩
    have left : other ∈ bindings.openVars := inStep.acyclic.get?_eq_none_of_mem_reify appears
    exact inStep.bijective.injOn free left same ▸ appears
  · intro appears
    exact ⟨index, appears, rfl⟩

/-- In step, the bindings are the same up to names. -/
theorem renames (inStep : InStep name bindings mirrored) : bindings.Renames name mirrored where
  size := size_eq_of_openVars <| by
    rw [← inStep.bijective.image_eq, inStep.bijective.injOn.ncard_image]
  bijective := inStep.bijective
  reify term := ⟨bindings.reify term, inStep.acyclic.reify?_eq term, by
    rw [inStep.mirroredAcyclic.reify?_eq, inStep.reify]⟩

/-- In step, an open variable and the one that corresponds to it may be bound to one term that is no
variable. -/
theorem bindTerm (inStep : InStep name bindings mirrored) {index : UInt64} {term : Term A}
    (free : index ∈ bindings.openVars) (rigid : term.isVar = false)
    (absent : bindings.occurs index term = false) :
    InStep name (IntMap.insert bindings index term)
      (IntMap.insert mirrored (name index) term) := by
  have mirroredFree : name index ∈ mirrored.openVars := inStep.bijective.mapsTo free
  have acyclic := inStep.acyclic.insert_of_occurs free absent
  have mirroredAcyclic := inStep.mirroredAcyclic.insert_of_occurs mirroredFree
    ((inStep.occurs free term).trans absent)
  have resolved : ∀ others : Substitution A, others.binding? term = none := by
    intro others
    cases term with
    | var => cases rigid
    | atom | op => rfl
  have different : ∀ other, term ≠ .var other := by
    rintro other rfl
    cases rigid
  refine ⟨acyclic, mirroredAcyclic, ?_, fun start => ?_⟩
  · rw [openVars_insert, openVars_insert]
    exact inStep.bijective.sdiff_singleton free
  · rw [inStep.mirroredAcyclic.walk_insert mirroredFree (resolved _) (different _) mirroredAcyclic,
      inStep.acyclic.walk_insert free (resolved _) (different _) acyclic, inStep.walk]
    cases walked : bindings.walk start with
    | var other =>
      have still : other ∈ bindings.openVars := inStep.acyclic.get?_eq_none_of_walk walked
      have names : name other = name index ↔ other = index :=
        inStep.bijective.injOn.eq_iff still free
      simp only [Term.renameHead_var, Term.index?, Option.some.injEq, names]
      split
      · exact (Term.renameHead_of_not_isVar name rigid).symm
      · rfl
    | atom | op => rfl

/-- In step, an open variable may be bound to another one, and the variable that corresponds to the
other one to the one that corresponds to it. The variable that stays open takes over its name. -/
theorem bindVar (inStep : InStep name bindings mirrored) {left right : UInt64}
    (leftFree : left ∈ bindings.openVars) (rightFree : right ∈ bindings.openVars)
    (different : left ≠ right) :
    InStep (name ∘ Equiv.swap left right) (IntMap.insert bindings left (.var right))
      (IntMap.insert mirrored (name right) (.var (name left))) := by
  have mirroredLeft : name left ∈ mirrored.openVars := inStep.bijective.mapsTo leftFree
  have mirroredRight : name right ∈ mirrored.openVars := inStep.bijective.mapsTo rightFree
  have apart : name left ≠ name right := fun same =>
    different (inStep.bijective.injOn leftFree rightFree same)
  have acyclic := inStep.acyclic.insert_of_occurs leftFree
    (inStep.acyclic.occurs_var rightFree different)
  have mirroredAcyclic := inStep.mirroredAcyclic.insert_of_occurs mirroredRight
    (inStep.mirroredAcyclic.occurs_var mirroredLeft apart.symm)
  refine ⟨acyclic, mirroredAcyclic, ?_, fun start => ?_⟩
  · have exchanged : Set.BijOn (Equiv.swap left right) bindings.openVars bindings.openVars := by
      apply Equiv.bijOn
      intro index
      rw [Equiv.swap_apply_def]
      split
      · next same => simp [same, leftFree, rightFree]
      · split
        · next same => simp [same, leftFree, rightFree]
        · rfl
    have remaining := (inStep.bijective.comp exchanged).sdiff_singleton leftFree
    rw [Function.comp_apply, Equiv.swap_apply_left] at remaining
    rwa [openVars_insert, openVars_insert]
  · have resolved : bindings.binding? (.var right) = none := rightFree
    have mirroredResolved : mirrored.binding? (.var (name left)) = none := mirroredLeft
    rw [inStep.mirroredAcyclic.walk_insert mirroredRight mirroredResolved
        (fun same => apart (Term.var.inj same)) mirroredAcyclic,
      inStep.acyclic.walk_insert leftFree resolved
        (fun same => different (Term.var.inj same).symm) acyclic, inStep.walk]
    cases walked : bindings.walk start with
    | var other =>
      have still : other ∈ bindings.openVars := inStep.acyclic.get?_eq_none_of_walk walked
      have names : name other = name right ↔ other = right :=
        inStep.bijective.injOn.eq_iff still rightFree
      simp only [Term.renameHead_var, Term.index?, Option.some.injEq, names]
      by_cases atLeft : other = left
      · rw [if_neg (atLeft ▸ different), if_pos atLeft, Term.renameHead_var, Function.comp_apply,
          Equiv.swap_apply_right, atLeft]
      · by_cases atRight : other = right
        · rw [if_pos atRight, if_neg atLeft, Term.renameHead_var, Function.comp_apply, atRight,
            Equiv.swap_apply_right]
        · rw [if_neg atRight, if_neg atLeft, Term.renameHead_var, Function.comp_apply,
            Equiv.swap_apply_of_ne_of_ne atLeft atRight]
    | atom | op => rfl

end InStep

end Substitution

namespace Unification.Task

variable {bindings mirrored : Substitution A} {name : UInt64 → UInt64}
  {pending : List (Term A × Term A)}

/-- Two passes keep two runs in step: they come to answers that mirror each other, or go on with the
same pairs in the other order. -/
def Mirrors : Task A ⊕ Except Clash (Substitution A) →
    Task A ⊕ Except Clash (Substitution A) → Prop
  | .inr answer, .inr other => Mirrored answer other
  | .inl next, .inl other => other.pending = next.pending.map Prod.swap ∧
      ∃ name, Substitution.InStep name next.bindings other.bindings
  | _, _ => False

/-- Corresponding variables are bound alike, unless the term is a variable. -/
theorem mirrors_bind (inStep : Substitution.InStep name bindings mirrored) {index : UInt64}
    {term : Term A} (free : index ∈ bindings.openVars) (rigid : term.isVar = false) :
    Mirrors (bind bindings index term pending)
      (bind mirrored (name index) term (pending.map Prod.swap)) := by
  rw [bind, bind, inStep.occurs free]
  split
  · exact .inr ⟨index, name index, rfl, rfl⟩
  · next absent => exact ⟨rfl, name, inStep.bindTerm free rigid (Bool.eq_false_iff.mpr absent)⟩

variable [BEq A]

/-- Of two variables one is bound in the one run and the other one in the other run. -/
theorem mirrors_vars (inStep : Substitution.InStep name bindings mirrored) {left right : UInt64}
    (leftFree : left ∈ bindings.openVars) (rightFree : right ∈ bindings.openVars) :
    Mirrors (apart bindings (.var left) (.var right) pending)
      (apart mirrored (.var (name right)) (.var (name left)) (pending.map Prod.swap)) := by
  have mirroredLeft : name left ∈ mirrored.openVars := inStep.bijective.mapsTo leftFree
  have names : name right = name left ↔ right = left :=
    inStep.bijective.injOn.eq_iff rightFree leftFree
  rw [apart, apart]
  by_cases same : left = right
  · rw [if_pos (beq_iff_eq.mpr same), if_pos (beq_iff_eq.mpr (names.mpr same.symm))]
    exact ⟨rfl, name, inStep⟩
  · have apart : name right ≠ name left := fun equal => same (names.mp equal).symm
    have absent := inStep.acyclic.occurs_var rightFree same
    have mirroredAbsent := inStep.mirroredAcyclic.occurs_var mirroredLeft apart
    rw [if_neg (mt beq_iff_eq.mp same), if_neg (mt beq_iff_eq.mp apart), bind, bind, absent,
      mirroredAbsent]
    exact ⟨rfl, _, inStep.bindVar leftFree rightFree same⟩

/-- Two operations and the operations in the other order are taken apart alike. -/
theorem mirrors_op (inStep : Substitution.InStep name bindings mirrored) (symbol other : String)
    (lefts rights : List (Term A)) :
    Mirrors (apart bindings (.op symbol lefts) (.op other rights) pending)
      (apart mirrored (.op other rights) (.op symbol lefts) (pending.map Prod.swap)) := by
  rw [apart, apart]
  by_cases symbols : symbol = other
  · rw [if_neg (not_not.mpr symbols), if_neg (not_not.mpr symbols.symm)]
    by_cases lengths : lefts.length = rights.length
    · rw [if_neg (not_not.mpr lengths), if_neg (not_not.mpr lengths.symm)]
      refine ⟨?_, name, inStep⟩
      rw [List.map_append, List.zip_swap]
    · rw [if_pos lengths, if_pos (Ne.symm lengths), symbols]
      exact .inl rfl
  · rw [if_pos symbols, if_pos (Ne.symm symbols)]
    exact .inl rfl

/-- A pair and the pair in the other order are taken apart alike. -/
theorem mirrors_apart [PartialEquivBEq A] (inStep : Substitution.InStep name bindings mirrored)
    {left right : Term A} (leftResolved : bindings.binding? left = none)
    (rightResolved : bindings.binding? right = none) :
    Mirrors (apart bindings left right pending)
      (apart mirrored (right.renameHead name) (left.renameHead name)
        (pending.map Prod.swap)) := by
  cases left with
  | var index =>
    cases right with
    | var other => exact mirrors_vars inStep leftResolved rightResolved
    | atom | op => exact mirrors_bind inStep leftResolved rfl
  | atom payload =>
    cases right with
    | var index => exact mirrors_bind inStep rightResolved rfl
    | atom other =>
      show Mirrors (apart bindings (.atom payload) (.atom other) pending)
        (apart mirrored (.atom other) (.atom payload) (pending.map Prod.swap))
      rw [apart, apart, BEq.comm]
      split
      · exact ⟨rfl, name, inStep⟩
      · exact .inl rfl
    | op => exact .inl rfl
  | op symbol lefts =>
    cases right with
    | var index => exact mirrors_bind inStep rightResolved rfl
    | atom => exact .inl rfl
    | op other rights => exact mirrors_op inStep symbol other lefts rights

/-- A pass keeps two runs in step. -/
theorem mirrors_pass [PartialEquivBEq A] (inStep : Substitution.InStep name bindings mirrored)
    (pending : List (Term A × Term A)) :
    Mirrors (pass ⟨bindings, pending⟩) (pass ⟨mirrored, pending.map Prod.swap⟩) := by
  cases pending with
  | nil => exact ⟨name, inStep.renames⟩
  | cons pair pending =>
    obtain ⟨left, right⟩ := pair
    show Mirrors (apart bindings (bindings.walk left) (bindings.walk right) pending)
      (apart mirrored (mirrored.walk right) (mirrored.walk left) (pending.map Prod.swap))
    rw [inStep.walk, inStep.walk]
    exact mirrors_apart inStep (inStep.acyclic.leads_walk left).2
      (inStep.acyclic.leads_walk right).2

/-- Runs in step end with answers that mirror each other. -/
theorem mirrored_of_ends [PartialEquivBEq A] {task : Task A}
    {result otherResult : Except Clash (Substitution A)}
    (inStep : Substitution.InStep name task.bindings mirrored)
    (ends : EndsWith result task)
    (otherEnds : EndsWith otherResult ⟨mirrored, task.pending.map Prod.swap⟩) :
    Mirrored result otherResult := by
  induction ends generalizing name mirrored with
  | @intro task _ stop _ later =>
    obtain ⟨bindings, pending⟩ := task
    have kept := mirrors_pass inStep pending
    cases passed : pass ⟨bindings, pending⟩ with
    | inr answer =>
      cases otherPassed : pass ⟨mirrored, pending.map Prod.swap⟩ with
      | inr otherAnswer =>
        rw [passed, otherPassed] at kept
        rw [← stop answer passed, ← otherEnds.result_eq otherPassed]
        exact kept
      | inl next =>
        rw [passed, otherPassed] at kept
        exact kept.elim
    | inl next =>
      cases otherPassed : pass ⟨mirrored, pending.map Prod.swap⟩ with
      | inr otherAnswer =>
        rw [passed, otherPassed] at kept
        exact kept.elim
      | inl otherNext =>
        rw [passed, otherPassed] at kept
        obtain ⟨order, _, onward⟩ := kept
        have rest := otherEnds.next otherPassed
        obtain ⟨after, waiting⟩ := otherNext
        subst order
        exact later next passed onward rest

end Unification.Task

/-- Unification is symmetric up to names. Under acyclic bindings two terms unify in one order if
they do in the other. Then there are as many bindings in both answers, and the variables left open
in the one are those left open in the other under other names, under which every term resolves to
the same. Otherwise both clashes say the same with left and right exchanged; only where both are
failed occurs checks they may name different variables. -/
theorem unify_symmetric [BEq A] [PartialEquivBEq A] [Decidable (ReflBEq A)] (left right : Term A)
    {bindings : Substitution A} (acyclic : bindings.Acyclic) :
    unify? left right bindings = some (unify left right bindings) ∧
      unify? right left bindings = some (unify right left bindings) ∧
      Unification.Mirrored (unify left right bindings) (unify right left bindings) := by
  obtain ⟨answer, _, ends, _⟩ := exists_unifyRecursive? left right acyclic
  obtain ⟨other, _, otherEnds, _⟩ := exists_unifyRecursive? right left acyclic
  refine ⟨(unify?_answers left right acyclic).1, (unify?_answers right left acyclic).1, ?_⟩
  rw [Unification.Task.unify_eq_of_endsWith acyclic ends,
    Unification.Task.unify_eq_of_endsWith acyclic otherEnds]
  exact Unification.Task.mirrored_of_ends (.refl acyclic) ends otherEnds

/-- With `v3` bound to `g(v0)`, unifying `f(v0, v0)` with `f(v1, v2)` leaves `v2` open for all three
variables, and in the other order `v0`. -/
theorem other_variable_left_open :
    let bindings : Substitution Int64 := IntMap.insert IntMap.empty 3 (.op "g" [.var 0])
    let left : Term Int64 := .op "f" [.var 0, .var 0]
    let right : Term Int64 := .op "f" [.var 1, .var 2]
    let after : Substitution Int64 := (IntMap.insert bindings 0 (.var 1)).insert 1 (.var 2)
    let mirrored : Substitution Int64 := (IntMap.insert bindings 1 (.var 0)).insert 2 (.var 0)
    bindings.Acyclic ∧ unify left right bindings = .ok after ∧
      unify right left bindings = .ok mirrored ∧
        ∃ name, Substitution.Renames name after mirrored ∧ name 2 = 0 := by
  intro bindings left right after mirrored
  have acyclic : bindings.Acyclic :=
    Substitution.acyclic_empty.insert_of_occurs (IntMap.get?_empty 3) (by cbv)
  have found : unifyRecursive? 3 left right bindings =
      some (.ok ((IntMap.insert bindings 0 (.var 1)).insert 1 (.var 2))) := by cbv
  have otherFound : unifyRecursive? 3 right left bindings =
      some (.ok ((IntMap.insert bindings 1 (.var 0)).insert 2 (.var 0))) := by cbv
  have unified := unify_eq_of_unifyRecursive? acyclic found
  have exchanged := unify_eq_of_unifyRecursive? acyclic otherFound
  obtain ⟨_, _, answers⟩ := unify_symmetric left right acyclic
  rw [unified, exchanged] at answers
  obtain ⟨name, renames⟩ := answers
  refine ⟨acyclic, unified, exchanged, name, renames, ?_⟩
  obtain ⟨value, found, named⟩ := renames.reify (.var 2)
  have here : after.reify? (.var 2) = some (.var 2) := by cbv
  have there : mirrored.reify? (.var 2) = some (.var 0) := by cbv
  rw [here, Option.some.injEq] at found
  rw [there, ← found, Term.rename, Term.bind_var, Option.some.injEq, Term.var.injEq] at named
  exact named.symm

end Relational
