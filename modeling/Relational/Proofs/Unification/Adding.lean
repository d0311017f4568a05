import Mathlib.Data.List.Dedup
import Relational.Goal.Meaning
import Relational.Proofs.Unification.Recursion
import Relational.Proofs.Unification.Variables

/-!
# Unification adds only what it was given

The bindings grow while the pairs are worked off, and pairs come from terms that were bound a moment
before. What holds the two together: under the bindings so far, the pending pairs resolve to terms
whose variables were open in the two terms given, and all their variables, like those of the terms
bound so far, are variables that were mentioned. A variable that is bound is where walking ends, so
it has no binding and is itself what a side resolves to; and after it is bound, terms resolve to no
more variables than before.
-/
namespace Relational

/-!
## What unification adds

A pass of unification binds a variable only where walking from a side of the next pair ends at one.
The call that binds it takes for granted that the variable has no binding. Bindings that are added
one by one, some of them because of others added before, are still only about what unification was
given: the open variables of the two terms get bindings, and nothing is said that the terms and the
bindings before did not mention.
-/

section Adding

universe u

variable {A : Type u}

namespace Unification.Task

/-- What the next pass binds, after the occurs check: a variable and the term for it, or nothing. -/
def binds? [BEq A] : Task A → Option (UInt64 × Term A)
  | ⟨_, []⟩ => none
  | ⟨bindings, (left, right) :: _⟩ =>
    match bindings.walk left, bindings.walk right with
    | .var left, .var right => if left == right then none else some (left, .var right)
    | .var index, other => some (index, other)
    | other, .var index => some (index, other)
    | _, _ => none

/-- Runs of the loop go from one task on to another. -/
def Reaches [BEq A] : Task A → Task A → Prop :=
  Relation.ReflTransGen fun before after => before.Passes (.inl after)

/-- The next pass binds a variable only if it has no binding. -/
structure Guarded [BEq A] (task : Task A) : Prop where
  /-- What the pass binds has no binding, and the pass is the binding of it. -/
  unbound : ∀ {index : UInt64} {term : Term A}, task.binds? = some (index, term) →
    task.bindings.get? index = none ∧
      ∀ outcome, task.Passes outcome ↔
        outcome = bind task.bindings index term task.pending.tail
  /-- A pass that binds nothing leaves the bindings as they are. -/
  same : task.binds? = none → ∀ next, task.Passes (.inl next) → next.bindings = task.bindings

end Unification.Task

namespace Substitution

/-- The variables that have a binding after and had none before. -/
def newKeys (before after : Substitution A) : Set UInt64 :=
  {index | before.get? index = none ∧ (after.get? index).isSome}

/-- A variable is mentioned by two terms or by a term that some bindings bind a variable to. -/
def Mentions (bindings : Substitution A) (left right : Term A) (index : UInt64) : Prop :=
  index ∈ left.vars ∨ index ∈ right.vars ∨
    ∃ key term, bindings.get? key = some term ∧ index ∈ term.vars

/-- The variables that are open in one of two terms, seen through some bindings, each of them
once. -/
def openIn (bindings : Substitution A) (left right : Term A) : List UInt64 :=
  ((bindings.reify left).vars ++ (bindings.reify right).vars).dedup

/-- Bindings after are those before and others that are about what the bindings before and two terms
mention. -/
structure Adds (left right : Term A) (before after : Substitution A) : Prop where
  /-- What had a binding keeps it. -/
  kept : before.Extends after
  /-- What gets a binding was open in one of the terms. -/
  key : ∀ index ∈ before.newKeys after,
    index ∈ (before.reify left).vars ∨ index ∈ (before.reify right).vars
  /-- What it is bound to has no variables that were not mentioned. -/
  value : ∀ index ∈ before.newKeys after, ∀ term, after.get? index = some term →
    ∀ other ∈ term.vars, before.Mentions left right other
  /-- The size goes up by the number of variables that get a binding. -/
  size : after.size = before.size + (before.newKeys after).ncard
  /-- No more variables get a binding than were open in the terms. -/
  number : (before.newKeys after).ncard ≤ (before.openIn left right).length

end Substitution

end Adding

/-! ## Passes and runs -/

/-- Runs that end come to a state with the pass that ends them. -/
theorem Loop.Ends.exists_last {S R : Type} {pass : S → S ⊕ R → Prop} {result : R} {state : S}
    (ends : Loop.Ends pass result state) :
    ∃ last, Relation.ReflTransGen (fun before after => pass before (.inl after)) state last ∧
      pass last (.inr result) := by
  induction ends with
  | intro going stop _ later =>
    obtain ⟨next | other, passed⟩ := going
    · obtain ⟨last, path, ended⟩ := later next passed
      exact ⟨last, .head passed path, ended⟩
    · exact ⟨_, .refl, stop other passed ▸ passed⟩

variable {A : Type} {bindings after : Substitution A} {left right : Term A}

namespace Substitution

/-- Walking ends at a term that is inside if the term it starts at is and all terms that variables
are bound to are. -/
theorem Leads.within {inside : UInt64 → Prop} {start stop : Term A}
    (leads : bindings.Leads start stop)
    (bound : ∀ {index term}, bindings.get? index = some term → Term.Within inside term)
    (within : start.Within inside) : stop.Within inside := by
  induction leads with
  | here => exact within
  | cross found _ onward => exact onward (bound found)

/-- Where a variable is bound to a term, terms resolve to variables that they or the term resolved
to before. Variables that a term resolves to stay open, but for the one that is bound. -/
theorem Acyclic.within_reify_insert (acyclic : bindings.Acyclic) {inside : UInt64 → Prop}
    {index : UInt64} {bound : Term A} (unbound : bindings.get? index = none)
    (absent : bindings.occurs index bound = false)
    (withinBound : (bindings.reify bound).Within inside)
    {term : Term A} (within : (bindings.reify term).Within inside) :
    (reify (IntMap.insert bindings index bound) term).Within inside := by
  have inserted := acyclic.insert_of_occurs unbound absent
  have kept : bindings.Extends (IntMap.insert bindings index bound) := extends_insert unbound
  have found : (IntMap.insert bindings index bound).get? index = some bound := by
    rw [IntMap.get?_insert, if_pos rfl]
  have absent : index ∉ (bindings.reify bound).vars := by
    rwa [acyclic.occurs_eq, decide_eq_false_iff_not] at absent
  have stays : ∀ other : UInt64, bindings.get? other = none → other ≠ index →
      value (IntMap.insert bindings index bound) other = .var other := by
    intro other free different
    apply value_of_get?_eq_none
    rw [IntMap.get?_insert, if_neg different, free]
  have here : (value (IntMap.insert bindings index bound) index).Within inside := by
    rw [inserted.value_of_get?_eq_some found, ← inserted.reify_eq_bind,
      ← acyclic.reify_reify inserted kept, inserted.reify_eq_bind]
    intro last appears
    obtain ⟨other, member, appears⟩ := Term.mem_vars_bind.mp appears
    have different : other ≠ index := fun same => absent (same ▸ member)
    rw [stays other (acyclic.get?_eq_none_of_mem_reify member) different, Term.vars_var,
      List.mem_singleton] at appears
    exact appears ▸ withinBound other member
  rw [← acyclic.reify_reify inserted kept, inserted.reify_eq_bind]
  intro last appears
  obtain ⟨other, member, appears⟩ := Term.mem_vars_bind.mp appears
  by_cases same : other = index
  · exact here last (same ▸ appears)
  · rw [stays other (acyclic.get?_eq_none_of_mem_reify member) same, Term.vars_var,
      List.mem_singleton] at appears
    exact appears ▸ within other member

/-- The size of bindings goes up by the number of variables that get one. -/
theorem Extends.size_eq (kept : bindings.Extends after) :
    after.size = bindings.size + (bindings.newKeys after).ncard := by
  have parts : {index | (after.get? index).isSome} =
      {index | (bindings.get? index).isSome} ∪ bindings.newKeys after := by
    ext index
    cases found : bindings.get? index with
    | none => simp [newKeys, found]
    | some term => simp [newKeys, found, kept index term found]
  have apart : Disjoint {index | (bindings.get? index).isSome} (bindings.newKeys after) := by
    rw [Set.disjoint_left]
    rintro index bound ⟨free, _⟩
    rw [Set.mem_ofPred_eq, free] at bound
    exact nomatch bound
  rw [IntMap.size_eq_ncard, parts, Set.ncard_union_eq apart, IntMap.size_eq_ncard]

/-- If only variables that are open in two terms get a binding, no more get one than are open. -/
theorem ncard_newKeys_le
    (open_ : ∀ index ∈ bindings.newKeys after,
      index ∈ (bindings.reify left).vars ∨ index ∈ (bindings.reify right).vars) :
    (bindings.newKeys after).ncard ≤ (bindings.openIn left right).length := by
  have listed : bindings.newKeys after ⊆ (bindings.openIn left right).toFinset := by
    intro index new
    rw [List.coe_toFinset, Set.mem_ofPred_eq, openIn, List.mem_dedup, List.mem_append]
    exact open_ index new
  calc
    (bindings.newKeys after).ncard ≤ (bindings.openIn left right).toFinset.card := by
      rw [← Set.ncard_coe_finset]
      exact Set.ncard_le_ncard listed (Set.toFinite _)
    _ = (bindings.openIn left right).length :=
      List.toFinset_card_of_nodup (List.nodup_dedup _)

end Substitution

namespace Unification.Task

open Substitution (Leads)

variable {pending : List (Term A × Term A)} {task next : Task A}

section Guarded

variable [BEq A]

/-- What is bound is where walking from one side ends, and it is bound to where walking from the
other side ends. -/
theorem of_binds? {index : UInt64} {term : Term A}
    (found : binds? ⟨bindings, (left, right) :: pending⟩ = some (index, term)) :
    (bindings.walk left = .var index ∧ bindings.walk right = term ∨
      bindings.walk right = .var index ∧ bindings.walk left = term) ∧
        pass ⟨bindings, (left, right) :: pending⟩ = bind bindings index term pending := by
  revert found
  rw [binds?, pass]
  cases bindings.walk left with
  | var here =>
    cases bindings.walk right with
    | var other =>
      rw [apart]
      intro found
      dsimp only at found
      split at found
      · cases found
      · next different =>
        cases found
        exact ⟨.inl ⟨rfl, rfl⟩, if_neg different⟩
    | atom | op =>
      intro found
      cases found
      exact ⟨.inl ⟨rfl, rfl⟩, rfl⟩
  | atom | op =>
    cases bindings.walk right with
    | var here =>
      intro found
      cases found
      exact ⟨.inr ⟨rfl, rfl⟩, rfl⟩
    | atom | op =>
      intro found
      cases found

/-- A pass that binds nothing leaves a pair out or replaces two operations by their arguments. -/
theorem of_binds?_eq_none (nothing : binds? ⟨bindings, (left, right) :: pending⟩ = none)
    (passed : pass ⟨bindings, (left, right) :: pending⟩ = .inl next) :
    next = ⟨bindings, pending⟩ ∨
      ∃ symbol lefts rights, bindings.walk left = .op symbol lefts ∧
        bindings.walk right = .op symbol rights ∧
          next = ⟨bindings, lefts.zip rights ++ pending⟩ := by
  revert nothing passed
  rw [binds?, pass]
  cases bindings.walk left with
  | var index =>
    cases bindings.walk right with
    | var other =>
      rw [apart]
      intro nothing passed
      dsimp only at nothing
      split at nothing
      · next same =>
        rw [if_pos same] at passed
        exact .inl (Sum.inl.inj passed).symm
      · cases nothing
    | atom | op =>
      intro nothing
      cases nothing
  | atom | op =>
    cases bindings.walk right with
    | var index =>
      intro nothing
      cases nothing
    | atom | op =>
      intro _ passed
      rcases apart_eq_inl passed with same | ⟨_, _, impossible, _⟩ |
        ⟨symbol, lefts, rights, leftOp, rightOp, _, same⟩
      · exact .inl same
      · rcases impossible with impossible | impossible <;> cases impossible
      · exact .inr ⟨symbol, lefts, rights, leftOp, rightOp, same⟩

/-- A pass that binds nothing goes on with the same bindings. -/
theorem bindings_eq_of_pass (nothing : task.binds? = none) (passed : task.pass = .inl next) :
    next.bindings = task.bindings := by
  obtain ⟨bindings, _ | ⟨⟨left, right⟩, pending⟩⟩ := task
  · exact nomatch passed
  rcases of_binds?_eq_none nothing passed with rfl | ⟨_, _, _, _, _, rfl⟩ <;> rfl

/-- Taking a pair apart never ends a run in success. -/
theorem apart_ne_ok (left right : Term A) :
    apart bindings left right pending ≠ .inr (.ok after) := by
  have clash (reason : Clash) :
      (.inr (.error reason) : Task A ⊕ Except Clash (Substitution A)) ≠ .inr (.ok after) := by
    intro same
    cases same
  have bound (index : UInt64) (term : Term A) :
      bind bindings index term pending ≠ .inr (.ok after) := by
    unfold bind
    split
    · exact clash _
    · exact Sum.inl_ne_inr
  unfold apart
  split
  · split
    · exact Sum.inl_ne_inr
    · exact bound _ _
  · exact bound _ _
  · exact bound _ _
  · split
    · exact Sum.inl_ne_inr
    · exact clash _
  · split
    · exact clash _
    · split
      · exact clash _
      · exact Sum.inl_ne_inr
  · exact clash _
  · exact clash _

/-- A run ends in success with the bindings so far. -/
theorem bindings_eq_of_passes (ended : task.Passes (.inr (.ok after))) : task.bindings = after := by
  rcases eq_or_of_passes ended with passed | ⟨_, _, _, _, impossible⟩
  · obtain ⟨bindings, _ | ⟨⟨left, right⟩, pending⟩⟩ := task
    · exact (Except.ok.inj (Sum.inr.inj passed)).symm
    · exact absurd passed.symm (apart_ne_ok _ _)
  · exact nomatch impossible

/-- Under acyclic bindings the next pass binds a variable only if it has no binding. -/
theorem guarded_of_acyclic (acyclic : task.bindings.Acyclic) : task.Guarded where
  unbound := by
    obtain ⟨bindings, _ | ⟨⟨left, right⟩, pending⟩⟩ := task
    · exact fun impossible => nomatch impossible
    intro index term found
    obtain ⟨sides, passed⟩ := of_binds? found
    refine ⟨?_, fun outcome => ⟨fun passes => ?_, fun same => ?_⟩⟩
    · rcases sides with ⟨walked, _⟩ | ⟨walked, _⟩
      · exact Substitution.Acyclic.get?_eq_none_of_walk acyclic walked
      · exact Substitution.Acyclic.get?_eq_none_of_walk acyclic walked
    · cases passes with
      | look => exact passed
      | one leftWalked rightWalked =>
        rw [binds?, leftWalked, rightWalked] at found
        exact nomatch found
    · rw [same]
      exact passed ▸ Passes.look _
  same := by
    intro nothing next passes
    rcases eq_or_of_passes passes with same | ⟨_, arguments, _, passed, same⟩
    · exact bindings_eq_of_pass nothing same.symm
    · have kept := bindings_eq_of_pass nothing passed
      rw [Sum.inl.inj same]
      exact kept

end Guarded

/-- A term has only variables that were mentioned, and resolves to variables that were open. -/
structure Fits (bindings : Substitution A) (isOpen mentioned : UInt64 → Prop) (term : Term A) :
    Prop where
  /-- The variables in the term. -/
  mentioned : term.Within mentioned
  /-- Those that it resolves to. -/
  isOpen : (bindings.reify term).Within isOpen

/-- A task has come about from some bindings, where some variables were open and some mentioned. -/
structure Inside (before : Substitution A) (isOpen mentioned : UInt64 → Prop) (task : Task A) :
    Prop where
  /-- No variable reaches itself. -/
  acyclic : task.bindings.Acyclic
  /-- What had a binding keeps it. -/
  kept : before.Extends task.bindings
  /-- New bindings are those of variables that were open. -/
  key : ∀ {index term}, before.get? index = none → task.bindings.get? index = some term →
    isOpen index
  /-- Variables are bound to terms about what was mentioned. -/
  value : ∀ {index term}, task.bindings.get? index = some term → term.Within mentioned
  /-- The pending pairs are about what was mentioned and open. -/
  pending : ∀ pair ∈ task.pending,
    Fits task.bindings isOpen mentioned pair.1 ∧ Fits task.bindings isOpen mentioned pair.2

variable {before : Substitution A} {isOpen mentioned : UInt64 → Prop} {term : Term A}

/-- Where walking from a term that fits ends is a term that fits. -/
theorem Inside.walk (inside : task.Inside before isOpen mentioned)
    (fits : Fits task.bindings isOpen mentioned term) :
    Fits task.bindings isOpen mentioned (task.bindings.walk term) where
  mentioned := (inside.acyclic.leads_walk term).1.within inside.value fits.mentioned
  isOpen := by
    rw [inside.acyclic.reify_walk]
    exact fits.isOpen

/-- The arguments of an operation that fits fit. -/
theorem Inside.argument (inside : task.Inside before isOpen mentioned) {symbol : String}
    {arguments : List (Term A)}
    (fits : Fits task.bindings isOpen mentioned (.op symbol arguments)) :
    ∀ argument ∈ arguments, Fits task.bindings isOpen mentioned argument := by
  intro argument member
  have resolved := inside.acyclic.reify_of_walk_op
    (Substitution.walk_of_not_isVar (rfl : (Term.op symbol arguments).isVar = false))
  refine ⟨fits.mentioned.argument argument member, ?_⟩
  exact (resolved ▸ fits.isOpen).argument _ (List.mem_map_of_mem member)

/-- A variable that fits may be bound to a term that fits. -/
theorem Inside.bind (inside : Inside before isOpen mentioned ⟨bindings, (left, right) :: pending⟩)
    {index : UInt64} (unbound : bindings.get? index = none)
    (absent : bindings.occurs index term = false)
    (variable_ : Fits bindings isOpen mentioned (.var index))
    (fits : Fits bindings isOpen mentioned term) :
    Inside before isOpen mentioned ⟨IntMap.insert bindings index term, pending⟩ where
  acyclic := inside.acyclic.insert_of_occurs unbound absent
  kept := inside.kept.trans (Substitution.extends_insert unbound)
  key := by
    intro other bound free found
    rw [IntMap.get?_insert] at found
    split at found
    · next same =>
      have resolved : bindings.reify (.var index) = .var index :=
        Substitution.value_of_get?_eq_none unbound
      have open_ := variable_.isOpen
      rw [resolved] at open_
      exact same ▸ open_ index (by simp)
    · exact inside.key free found
  value := by
    intro other bound found
    rw [IntMap.get?_insert] at found
    split at found
    · exact Option.some.inj found ▸ fits.mentioned
    · exact inside.value found
  pending := by
    have resolves : ∀ {side : Term A}, Fits bindings isOpen mentioned side →
        Fits (IntMap.insert bindings index term) isOpen mentioned side := fun side =>
      ⟨side.mentioned, inside.acyclic.within_reify_insert unbound absent fits.isOpen side.isOpen⟩
    intro pair member
    have sides := inside.pending pair (List.mem_cons_of_mem _ member)
    exact ⟨resolves sides.1, resolves sides.2⟩

/-- Any pairs that fit may be pending. -/
theorem Inside.replace (inside : Inside before isOpen mentioned ⟨bindings, pending⟩)
    {others : List (Term A × Term A)}
    (fits : ∀ pair ∈ others, Fits bindings isOpen mentioned pair.1 ∧
      Fits bindings isOpen mentioned pair.2) :
    Inside before isOpen mentioned ⟨bindings, others⟩ :=
  ⟨inside.acyclic, inside.kept, inside.key, inside.value, fits⟩

variable [BEq A]

/-- A pass keeps a task inside. -/
theorem Inside.pass (inside : task.Inside before isOpen mentioned)
    (passed : task.pass = .inl next) : next.Inside before isOpen mentioned := by
  obtain ⟨bindings, _ | ⟨⟨left, right⟩, pending⟩⟩ := task
  · cases passed
  obtain ⟨leftFits, rightFits⟩ := inside.pending (left, right) (List.mem_cons_self ..)
  have leftWalk := inside.walk leftFits
  have rightWalk := inside.walk rightFits
  cases found : binds? ⟨bindings, (left, right) :: pending⟩ with
  | some binding =>
    obtain ⟨index, term⟩ := binding
    obtain ⟨sides, bound⟩ := of_binds? found
    have unbound := ((guarded_of_acyclic inside.acyclic).unbound found).1
    rw [bound, Task.bind] at passed
    split at passed
    · cases passed
    · next absent =>
      rw [← Sum.inl.inj passed]
      have absent := Bool.eq_false_iff.mpr absent
      rcases sides with ⟨here, rfl⟩ | ⟨here, rfl⟩
      · exact inside.bind unbound absent (here ▸ leftWalk) rightWalk
      · exact inside.bind unbound absent (here ▸ rightWalk) leftWalk
  | none =>
    have others := fun pair member => inside.pending pair (List.mem_cons_of_mem _ member)
    rcases of_binds?_eq_none found passed with rfl | ⟨symbol, lefts, rights, leftOp, rightOp, rfl⟩
    · exact inside.replace others
    · refine inside.replace fun pair member => ?_
      rcases List.mem_append.mp member with new | old
      · obtain ⟨inLefts, inRights⟩ := List.of_mem_zip new
        exact ⟨inside.argument (leftOp ▸ leftWalk) _ inLefts,
          inside.argument (rightOp ▸ rightWalk) _ inRights⟩
      · exact others pair old

/-- Whatever a pass may go on with is inside. -/
theorem Inside.passes (inside : task.Inside before isOpen mentioned)
    (passes : task.Passes (.inl next)) : next.Inside before isOpen mentioned := by
  rcases eq_or_of_passes passes with looked | ⟨_, arguments, pending, looked, same⟩
  · exact inside.pass looked.symm
  · have whole := inside.pass looked
    rw [Sum.inl.inj same]
    exact whole.replace fun pair member => whole.pending pair (List.mem_append_right _ member)

/-- Every task that runs come to is inside. -/
theorem Inside.reaches (inside : task.Inside before isOpen mentioned) (path : task.Reaches next) :
    next.Inside before isOpen mentioned := by
  induction path with
  | refl => exact inside
  | tail _ passes inside => exact inside.passes passes

omit [BEq A] in
/-- The first task is inside what it is given. -/
theorem inside_start (acyclic : bindings.Acyclic) (left right : Term A) :
    Inside bindings
      (fun index => index ∈ (bindings.reify left).vars ∨ index ∈ (bindings.reify right).vars)
      (bindings.Mentions left right) ⟨bindings, [(left, right)]⟩ where
  acyclic := acyclic
  kept := .refl bindings
  key free found := nomatch free.symm.trans found
  value found := fun _ appears => .inr (.inr ⟨_, _, found, appears⟩)
  pending pair member := by
    rw [List.mem_singleton.mp member]
    exact ⟨⟨fun _ appears => .inl appears, fun _ appears => .inl appears⟩,
      ⟨fun _ appears => .inr (.inl appears), fun _ appears => .inr appears⟩⟩

omit [BEq A] in
/-- The bindings of a task inside add what they may. -/
theorem Inside.adds {left right : Term A}
    (inside : task.Inside before
      (fun index => index ∈ (before.reify left).vars ∨ index ∈ (before.reify right).vars)
      (before.Mentions left right)) : before.Adds left right task.bindings := by
  have key : ∀ index ∈ before.newKeys task.bindings,
      index ∈ (before.reify left).vars ∨ index ∈ (before.reify right).vars := by
    rintro index ⟨free, found⟩
    obtain ⟨term, found⟩ := Option.isSome_iff_exists.mp found
    exact inside.key free found
  exact ⟨inside.kept, key, fun _ _ _ found => inside.value found, inside.kept.size_eq,
    Substitution.ncard_newKeys_le key⟩

end Unification.Task

/-- Whenever the loop of unification comes to bind a variable under acyclic bindings, the variable
has no binding. What a run ends with in success, and so what unification returns, has every binding
as before; only variables that were open in one of the two terms have new ones, no more than there
are such variables, and the terms that they are bound to have no variables but those of the two
terms and of the terms bound before. -/
theorem unify_adds [BEq A] (left right : Term A) (acyclic : bindings.Acyclic) :
    (∀ task, Unification.Task.Reaches ⟨bindings, [(left, right)]⟩ task →
      task.Guarded ∧ ∀ after, task.Passes (.inr (.ok after)) → bindings.Adds left right after) ∧
    ∀ [ReflBEq A],
      Loop.Ends Unification.Task.Passes (unify left right bindings) ⟨bindings, [(left, right)]⟩ ∧
        ∀ after, unify left right bindings = .ok after → bindings.Adds left right after := by
  have start := Unification.Task.inside_start acyclic left right
  have ended : ∀ task, Unification.Task.Reaches ⟨bindings, [(left, right)]⟩ task →
      ∀ after, task.Passes (.inr (.ok after)) → bindings.Adds left right after := by
    intro task path after passes
    exact Unification.Task.bindings_eq_of_passes passes ▸ (start.reaches path).adds
  refine ⟨fun task path => ⟨?_, ended task path⟩, ?_⟩
  · exact Unification.Task.guarded_of_acyclic (start.reaches path).acyclic
  · intro _
    have ends := acyclic.loopsEnd.unify left right
    refine ⟨ends, fun after unified => ?_⟩
    obtain ⟨last, path, passes⟩ := ends.exists_last
    exact ended last path after (unified ▸ passes)

/-- With `v1` bound to `g(v0, v2)`, unifying `f(v0, v1)` with `f(v3, g(v4, v0))` binds `v0` to `v3`.
Then `v0` stands against `v4`, and so `v3` is bound, which has no binding at that time, and at last
`v2`. Four variables were open, and three of them get a binding. -/
theorem bound_behind_new_binding :
    let bindings : Substitution Int64 := IntMap.insert IntMap.empty 1 (.op "g" [.var 0, .var 2])
    let left : Term Int64 := .op "f" [.var 0, .var 1]
    let right : Term Int64 := .op "f" [.var 3, .op "g" [.var 4, .var 0]]
    let task : Unification.Task Int64 :=
      ⟨IntMap.insert bindings 0 (.var 3), [(.var 0, .var 4), (.var 2, .var 0)]⟩
    let after : Substitution Int64 :=
      ((IntMap.insert bindings 0 (.var 3)).insert 3 (.var 4)).insert 2 (.var 4)
    bindings.Acyclic ∧
      (Unification.Task.Reaches ⟨bindings, [(left, right)]⟩ task ∧
        task.binds? = some (3, .var 4) ∧ task.bindings.get? 3 = none) ∧
      unify left right bindings = .ok after ∧ (bindings.newKeys after).ncard = 3 ∧
        (bindings.openIn left right).length = 4 := by
  intro bindings left right task after
  have acyclic : bindings.Acyclic :=
    Substitution.acyclic_empty.insert_of_occurs (IntMap.get?_empty 1) (by cbv)
  obtain ⟨reached, added⟩ := unify_adds left right acyclic
  have looked : ∀ {before after : Unification.Task Int64}, before.pass = .inl after →
      before.Passes (.inl after) := fun {before _} passed => passed ▸ .look before
  have path : Unification.Task.Reaches ⟨bindings, [(left, right)]⟩ task := by
    have first : Unification.Task.pass ⟨bindings, [(left, right)]⟩ =
        .inl ⟨bindings, [(.var 0, .var 3), (.var 1, .op "g" [.var 4, .var 0])]⟩ := by cbv
    have second : Unification.Task.pass
        ⟨bindings, [(.var 0, .var 3), (.var 1, .op "g" [.var 4, .var 0])]⟩ =
          .inl ⟨IntMap.insert bindings 0 (.var 3), [(.var 1, .op "g" [.var 4, .var 0])]⟩ := by cbv
    have third : Unification.Task.pass
        ⟨IntMap.insert bindings 0 (.var 3), [(.var 1, .op "g" [.var 4, .var 0])]⟩ =
          .inl ⟨IntMap.insert bindings 0 (.var 3), [(.var 0, .var 4), (.var 2, .var 0)]⟩ := by cbv
    exact .head (looked first) (.head (looked second) (.single (looked third)))
  have next : task.binds? = some (3, .var 4) := by cbv
  have found : unifyRecursive? 5 left right bindings =
      some (.ok (((IntMap.insert bindings 0 (.var 3)).insert 3 (.var 4)).insert 2 (.var 4))) := by
    cbv
  have unified := unify_eq_of_unifyRecursive? acyclic found
  have size := (added.2 after unified).size
  refine ⟨acyclic, ⟨path, next, ((reached task path).1.unbound next).1⟩, unified, ?_, ?_⟩
  · have counted : after.size = 4 ∧ bindings.size = 1 := by cbv
    omega
  · cbv

end Relational
