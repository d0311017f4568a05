import Mathlib.Algebra.Order.BigOperators.Group.List
import Relational.Proofs.Substitution.Walking
import Relational.Proofs.Unification.MostGeneral
import Relational.Unification.Loop

/-!
# The loops end

Under acyclic bindings every term resolves to one of finite extent. Walking crosses bindings along
a way that has no cycle. The occurs check and resolving take a term apart, so that the extents of
what the pending terms resolve to go down. Unification either binds one more of finitely many
variables or takes a pair apart under the bindings that it has. What the runs that look at every
pair end with is what the worklist of equations comes to: pairs that are equal whatever is bound,
which the worklist leaves out, add nothing. A run that leaves out pairs of one operation with itself
ends so too, unless a payload differs from itself there.
-/
namespace Relational

universe u v

namespace Loop

variable {S : Type u} {R : Type v}

/-- A loop whose passes are a function ends with the result that its pass comes to. -/
theorem ends_of_stop {pass : S → S ⊕ R} {state : S} {result : R}
    (stopped : pass state = .inr result) :
    Ends (fun state outcome => pass state = outcome) result state :=
  .intro ⟨_, stopped⟩
    (fun _ other => Sum.inr.inj (other.symm.trans stopped))
    (fun _ impossible => nomatch stopped.symm.trans impossible)

/-- A loop whose passes are a function ends with the result that it ends with after its pass. -/
theorem ends_of_again {pass : S → S ⊕ R} {state next : S} {result : R}
    (passed : pass state = .inl next)
    (later : Ends (fun state outcome => pass state = outcome) result next) :
    Ends (fun state outcome => pass state = outcome) result state :=
  .intro ⟨_, passed⟩
    (fun _ impossible => nomatch passed.symm.trans impossible)
    (fun _ other => Sum.inl.inj (passed.symm.trans other) ▸ later)

variable {pass : S → S ⊕ R → Prop} {state : S} {result other : R}

/-- The runs after a pass end as the runs before it. -/
theorem Ends.next (ends : Ends pass result state) {next : S} (passed : pass state (.inl next)) :
    Ends pass result next := by
  cases ends with
  | intro _ _ again => exact again next passed

/-- A pass that comes to a result comes to the one that the runs end with. -/
theorem Ends.result_eq (ends : Ends pass result state) (passed : pass state (.inr other)) :
    other = result := by
  cases ends with
  | intro _ stop _ => exact stop other passed

end Loop

variable {A : Type u}

/-- The extent of arguments is that of the arguments together. -/
theorem Term.extentOf_eq_sum (arguments : List (Term A)) :
    extentOf arguments = (arguments.map extent).sum := by
  induction arguments with
  | nil => rfl
  | cons argument arguments later => rw [extentOf, later, List.map_cons, List.sum_cons]

/-- Every term is made of something. -/
theorem Term.extent_pos (term : Term A) : 0 < term.extent := by
  cases term with
  | var | atom => exact Nat.one_pos
  | op symbol arguments => exact Nat.succ_pos _

namespace Substitution

variable {bindings : Substitution A}

/-- How much a term resolves to. -/
def weight (bindings : Substitution A) (term : Term A) : Nat := (bindings.reify term).extent

/-- Every term resolves to something. -/
theorem weight_pos (bindings : Substitution A) (term : Term A) : 0 < bindings.weight term :=
  Term.extent_pos _

/-- A term from which walking ends at an operation has one more weight than the arguments. -/
theorem Acyclic.weight_of_walk_op (acyclic : bindings.Acyclic) {term : Term A} {symbol : String}
    {arguments : List (Term A)} (walked : bindings.walk term = .op symbol arguments) :
    bindings.weight term = (arguments.map bindings.weight).sum + 1 := by
  rw [weight, acyclic.reify_of_walk_op walked, Term.extent, Term.extentOf_eq_sum, List.map_map]
  rfl

/-- The loop of walking ends. -/
theorem Acyclic.walk_ends (acyclic : bindings.Acyclic) (term : Term A) :
    Loop.Ends (fun state outcome => bindings.walkPass state = outcome) (bindings.walk term)
      term := by
  obtain ⟨leads, resolved⟩ := acyclic.leads_walk term
  generalize bindings.walk term = stop at leads resolved
  induction leads with
  | here term => exact Loop.ends_of_stop (by rw [walkPass, resolved])
  | cross bound _ later =>
    refine Loop.ends_of_again ?_ (later resolved)
    rw [walkPass, binding?, bound]

/-- The loop of the occurs check ends, with whether the variable appears in what one of the pending
terms resolves to. -/
theorem Acyclic.occursPass_ends (acyclic : bindings.Acyclic) (index : UInt64)
    (pending : List (Term A)) :
    Loop.Ends (fun state outcome => bindings.occursPass index state = outcome)
      (pending.any fun term => decide (index ∈ (bindings.reify term).vars)) pending := by
  generalize weighs : (pending.map bindings.weight).sum = total
  induction total using Nat.strong_induction_on generalizing pending with
  | _ total lighter =>
    cases pending with
    | nil => exact Loop.ends_of_stop rfl
    | cons next pending =>
      rw [List.map_cons, List.sum_cons] at weighs
      have positive := bindings.weight_pos next
      rw [List.any_cons]
      cases walked : bindings.walk next with
      | var other =>
        rw [acyclic.reify_of_walk_var walked, Term.vars_var]
        by_cases same : other = index
        · have stopped : bindings.occursPass index (next :: pending) = .inr true := by
            simp [occursPass, walked, same]
          rw [decide_eq_true (List.mem_singleton.mpr same.symm), Bool.true_or]
          exact Loop.ends_of_stop stopped
        · have passed : bindings.occursPass index (next :: pending) = .inl pending := by
            simp [occursPass, walked, same]
          rw [decide_eq_false fun member => same (List.mem_singleton.mp member).symm,
            Bool.false_or]
          exact Loop.ends_of_again passed (lighter _ (by omega) pending rfl)
      | atom payload =>
        have passed : bindings.occursPass index (next :: pending) = .inl pending := by
          simp [occursPass, walked]
        rw [acyclic.reify_of_walk_atom walked, Term.vars_atom,
          decide_eq_false List.not_mem_nil, Bool.false_or]
        exact Loop.ends_of_again passed (lighter _ (by omega) pending rfl)
      | op symbol arguments =>
        have passed : bindings.occursPass index (next :: pending) =
            .inl (arguments.reverse ++ pending) := by
          simp [occursPass, walked]
        have weight := acyclic.weight_of_walk_op walked
        have less : ((arguments.reverse ++ pending).map bindings.weight).sum < total := by
          rw [List.map_append, List.sum_append, List.map_reverse, List.sum_reverse]
          omega
        have inside : decide (index ∈ (bindings.reify next).vars) =
            arguments.any fun term => decide (index ∈ (bindings.reify term).vars) := by
          rw [Bool.eq_iff_iff, decide_eq_true_iff, acyclic.reify_of_walk_op walked, Term.vars_op,
            List.any_eq_true]
          simp
        rw [inside, ← List.any_reverse, ← List.any_append]
        exact Loop.ends_of_again passed (lighter _ less _ rfl)

/-- The loop of the occurs check ends. -/
theorem Acyclic.occurs_ends (acyclic : bindings.Acyclic) (index : UInt64) (term : Term A) :
    Loop.Ends (fun state outcome => bindings.occursPass index state = outcome)
      (bindings.occurs index term) [term] := by
  have ends := acyclic.occursPass_ends index [term]
  rw [List.any_cons, List.any_nil, Bool.or_false] at ends
  rwa [acyclic.occurs_eq]

/-- Walking and the occurs check end. -/
theorem Acyclic.checksEnd (acyclic : bindings.Acyclic) : bindings.ChecksEnd :=
  ⟨acyclic.walk_ends, acyclic.occurs_ends⟩

/-- The recursion of resolving ends. -/
theorem Acyclic.reifies (acyclic : bindings.Acyclic) (term : Term A) :
    bindings.Reifies term (bindings.reify term) := by
  generalize weighs : bindings.weight term = total
  induction total using Nat.strong_induction_on generalizing term with
  | _ total lighter =>
    cases walked : bindings.walk term with
    | var index => exact acyclic.reify_of_walk_var walked ▸ .var walked
    | atom payload => exact acyclic.reify_of_walk_atom walked ▸ .atom walked
    | op symbol arguments =>
      rw [acyclic.reify_of_walk_op walked]
      refine .op walked ?_
      rw [List.forall₂_map_right_iff, List.forall₂_same]
      intro argument member
      have weight := acyclic.weight_of_walk_op walked
      have part : bindings.weight argument ≤ (arguments.map bindings.weight).sum :=
        List.le_sum_of_mem (List.mem_map_of_mem member)
      exact lighter _ (by omega) argument rfl

/-- How many variables have no binding. -/
noncomputable def unbound (bindings : Substitution A) : Nat :=
  {index | bindings.get? index = none}.ncard

/-- One more binding leaves fewer variables without one. -/
theorem unbound_insert_lt {index : UInt64} (free : bindings.get? index = none) (term : Term A) :
    unbound (IntMap.insert bindings index term) < bindings.unbound := by
  apply Set.ncard_lt_ncard _ (Set.toFinite _)
  refine ⟨fun other still => ?_, fun all => ?_⟩
  · rw [Set.mem_ofPred_eq, IntMap.get?_insert] at still
    by_cases same : other = index
    · exact same ▸ free
    · rwa [if_neg same] at still
  · have gone := all free
    rw [Set.mem_ofPred_eq, IntMap.get?_insert, if_pos rfl] at gone
    exact nomatch gone

end Substitution

namespace Unification.Task

open Unification (Equation Front Outcome between)

variable [BEq A] {bindings : Substitution A} {left right : Term A}
  {pending : List (Term A × Term A)} {task next : Task A}

/-- What taking a pair apart goes on with: the other pairs, one more binding, or the pairs of the
arguments of two operations. A variable is bound where it does not appear in the other side. -/
theorem apart_eq_inl (taken : apart bindings left right pending = .inl next) :
    next = ⟨bindings, pending⟩ ∨
      (∃ index term, (left = .var index ∨ right = .var index) ∧
        bindings.occurs index term = false ∧
          next = ⟨IntMap.insert bindings index term, pending⟩) ∨
      ∃ symbol lefts rights, left = .op symbol lefts ∧ right = .op symbol rights ∧
        lefts.length = rights.length ∧ next = ⟨bindings, lefts.zip rights ++ pending⟩ := by
  have bound : ∀ {index : UInt64} {term : Term A}, (left = .var index ∨ right = .var index) →
      bind bindings index term pending = .inl next →
        ∃ index term, (left = .var index ∨ right = .var index) ∧
          bindings.occurs index term = false ∧
            next = ⟨IntMap.insert bindings index term, pending⟩ := by
    intro index term side made
    unfold bind at made
    split at made
    · cases made
    · next absent =>
      exact ⟨index, term, side, Bool.eq_false_iff.mpr absent, (Sum.inl.inj made).symm⟩
  unfold apart at taken
  split at taken
  · split at taken
    · exact .inl (Sum.inl.inj taken).symm
    · exact .inr (.inl (bound (.inl rfl) taken))
  · exact .inr (.inl (bound (.inl rfl) taken))
  · exact .inr (.inl (bound (.inr rfl) taken))
  · split at taken
    · exact .inl (Sum.inl.inj taken).symm
    · cases taken
  · split at taken
    · cases taken
    · next symbols =>
      split at taken
      · cases taken
      · next lengths =>
        exact .inr (.inr ⟨_, _, _, rfl, by rw [not_not.mp symbols], not_not.mp lengths,
          (Sum.inl.inj taken).symm⟩)
  · cases taken
  · cases taken

/-- How much the pending pairs resolve to. -/
def weight (bindings : Substitution A) (pending : List (Term A × Term A)) : Nat :=
  (pending.map fun pair => bindings.weight pair.1 + bindings.weight pair.2).sum

omit [BEq A] in
/-- Pairs that come before others weigh as much as they do apart. -/
theorem weight_append (before after : List (Term A × Term A)) :
    weight bindings (before ++ after) = weight bindings before + weight bindings after := by
  rw [weight, List.map_append, List.sum_append]
  rfl

omit [BEq A] in
/-- The pairs of two lists weigh as much as the lists. -/
theorem weight_zip {lefts rights : List (Term A)} (lengths : lefts.length = rights.length) :
    weight bindings (lefts.zip rights) =
      (lefts.map bindings.weight).sum + (rights.map bindings.weight).sum := by
  induction lefts generalizing rights with
  | nil =>
    rw [List.eq_nil_of_length_eq_zero lengths.symm]
    rfl
  | cons left lefts later =>
    cases rights with
    | nil => exact nomatch lengths
    | cons right rights =>
      have rest := later (Nat.succ.inj lengths)
      rw [weight] at rest ⊢
      rw [List.zip_cons_cons]
      simp only [List.map_cons, List.sum_cons]
      omega

/-- A task that follows another has fewer variables without a binding, or as many and pairs of less
weight. -/
def Lighter (next task : Task A) : Prop :=
  Prod.Lex (· < ·) (· < ·) (next.bindings.unbound, weight next.bindings next.pending)
    (task.bindings.unbound, weight task.bindings task.pending)

omit [BEq A] in
/-- There is no endless descent. -/
theorem lighter_wellFounded : WellFounded (@Lighter A) :=
  InvImage.wf (fun task : Task A => (task.bindings.unbound, weight task.bindings task.pending))
    (Prod.lex ⟨_, Nat.lt_wfRel.wf⟩ ⟨_, Nat.lt_wfRel.wf⟩).wf

/-- A pass keeps bindings acyclic and goes on with a lighter task. -/
theorem lighter_of_pass (acyclic : task.bindings.Acyclic) (passed : task.pass = .inl next) :
    next.bindings.Acyclic ∧ next.Lighter task := by
  obtain ⟨bindings, _ | ⟨⟨left, right⟩, pending⟩⟩ := task
  · exact nomatch passed
  have acyclic : bindings.Acyclic := acyclic
  have total : weight bindings ((left, right) :: pending) =
      bindings.weight left + bindings.weight right + weight bindings pending := rfl
  rcases apart_eq_inl passed with rfl | ⟨index, term, side, absent, rfl⟩ |
    ⟨symbol, lefts, rights, leftWalked, rightWalked, lengths, rfl⟩
  · have positive := bindings.weight_pos left
    refine ⟨acyclic, .right _ ?_⟩
    show weight bindings pending < weight bindings ((left, right) :: pending)
    omega
  · have free : bindings.get? index = none :=
      side.elim (acyclic.get?_eq_none_of_walk ·) (acyclic.get?_eq_none_of_walk ·)
    exact ⟨acyclic.insert_of_occurs free absent,
      .left _ _ (Substitution.unbound_insert_lt free term)⟩
  · have one := acyclic.weight_of_walk_op leftWalked
    have other := acyclic.weight_of_walk_op rightWalked
    refine ⟨acyclic, .right _ ?_⟩
    show weight bindings (lefts.zip rights ++ pending) < weight bindings ((left, right) :: pending)
    rw [total, one, other, weight_append, weight_zip lengths]
    omega

variable {result : Except Clash (Substitution A)}

/-- The runs that look at every pair end with this result. -/
abbrev EndsWith (result : Except Clash (Substitution A)) (task : Task A) : Prop :=
  Loop.Ends (fun task outcome => task.pass = outcome) result task

/-- From acyclic bindings the runs that look at every pair end. -/
theorem exists_endsWith (task : Task A) (acyclic : task.bindings.Acyclic) :
    ∃ result, EndsWith result task := by
  induction task using lighter_wellFounded.induction with
  | _ task lighter =>
    cases passed : task.pass with
    | inr result => exact ⟨result, Loop.ends_of_stop passed⟩
    | inl next =>
      obtain ⟨after, less⟩ := lighter_of_pass acyclic passed
      obtain ⟨result, ends⟩ := lighter next less after
      exact ⟨result, Loop.ends_of_again passed ends⟩

/-- A pass looks at two resolved terms as they are. -/
theorem pass_of_resolved (leftWalked : bindings.walk left = left)
    (rightWalked : bindings.walk right = right) :
    pass ⟨bindings, (left, right) :: pending⟩ = apart bindings left right pending := by
  rw [pass, leftWalked, rightWalked]

/-- Two operations with one symbol and as many arguments are replaced by the pairs of their
arguments. -/
theorem endsWith_of_op {symbol : String} {lefts rights : List (Term A)}
    (lengths : lefts.length = rights.length)
    (ends : EndsWith result ⟨bindings, (.op symbol lefts, .op symbol rights) :: pending⟩) :
    EndsWith result ⟨bindings, lefts.zip rights ++ pending⟩ := by
  refine ends.next ?_
  rw [pass_of_resolved (Substitution.walk_of_not_isVar rfl) (Substitution.walk_of_not_isVar rfl),
    apart, if_neg (not_not.mpr rfl), if_neg (not_not.mpr lengths)]

/-- Runs that start with terms against themselves end as the runs without them, if payloads are
equal to themselves or there is no clash of two payloads. -/
theorem ends_of_zip_self {passes : Task A → Task A ⊕ Except Clash (Substitution A) → Prop}
    (looks : ∀ task : Task A, passes task task.pass) (law : ReflBEq A ∨ result ≠ .error .atoms)
    {terms : List (Term A)}
    (ends : Loop.Ends passes result ⟨bindings, terms.zip terms ++ pending⟩) :
    Loop.Ends passes result ⟨bindings, pending⟩ := by
  generalize start : (⟨bindings, terms.zip terms ++ pending⟩ : Task A) = task at ends
  induction ends generalizing terms with
  | intro going stop again later =>
    subst start
    cases terms with
    | nil => exact .intro going stop again
    | cons term terms =>
      have looked := looks ⟨bindings, (term, term) :: (terms.zip terms ++ pending)⟩
      rw [pass] at looked
      cases walked : bindings.walk term with
      | var index =>
        rw [walked, apart, if_pos BEq.rfl] at looked
        exact later _ looked rfl
      | atom payload =>
        rw [walked, apart] at looked
        split at looked
        · exact later _ looked rfl
        · next different =>
          rcases law with reflexive | other
          · exact absurd BEq.rfl different
          · exact absurd (stop _ looked).symm other
      | op symbol arguments =>
        have order :
            (⟨bindings, (arguments ++ terms).zip (arguments ++ terms) ++ pending⟩ : Task A) =
            ⟨bindings, arguments.zip arguments ++ (terms.zip terms ++ pending)⟩ := by
          rw [List.zip_append rfl, List.append_assoc]
        rw [walked, apart, if_neg (not_not.mpr rfl), if_neg (not_not.mpr rfl)] at looked
        exact later _ looked order

section Same

variable [Decidable (ReflBEq A)]

/-- Runs that start with arguments that do not differ end as the runs without them, if that holds of
each of the arguments. -/
theorem endsWith_of_differencesAll_eq_none {crossed : Nat} {lefts rights : List (Term A)}
    (lengths : lefts.length = rights.length)
    (each : ∀ left ∈ lefts, ∀ right pending, left.differences crossed right = none →
      EndsWith result ⟨bindings, (left, right) :: pending⟩ →
        EndsWith result ⟨bindings, pending⟩)
    (same : Term.differencesAll crossed lefts rights = none)
    (ends : EndsWith result ⟨bindings, lefts.zip rights ++ pending⟩) :
    EndsWith result ⟨bindings, pending⟩ := by
  induction lefts generalizing rights with
  | nil => exact ends
  | cons left lefts later =>
    cases rights with
    | nil => exact nomatch lengths
    | cons right rights =>
      rw [Term.differencesAll] at same
      cases first : left.differences crossed right with
      | none =>
        rw [first] at same
        exact later (Nat.succ.inj lengths)
          (fun other member => each other (List.mem_cons_of_mem _ member)) same
          (each left (List.mem_cons_self ..) right _ first ends)
      | some front =>
        rw [first] at same
        cases same

/-- Runs that start with two terms that do not differ end as the runs without them. -/
theorem endsWith_of_differences_eq_none {crossed : Nat}
    (same : left.differences crossed right = none)
    (ends : EndsWith result ⟨bindings, (left, right) :: pending⟩) :
    EndsWith result ⟨bindings, pending⟩ := by
  induction left using Term.induct generalizing right pending with
  | var index =>
    cases right with
    | var other =>
      rw [Term.differences] at same
      split at same
      · next equal =>
        obtain ⟨equal, reflexive⟩ := equal
        cases eq_of_beq equal
        have twice : EndsWith result ⟨bindings, [.var index].zip [.var index] ++ pending⟩ := ends
        exact ends_of_zip_self (fun _ => rfl) (.inl reflexive) twice
      · cases same
    | atom | op => cases same
  | atom payload =>
    cases right with
    | atom other =>
      rw [Term.differences] at same
      split at same
      · next equal =>
        refine ends.next ?_
        rw [pass_of_resolved (Substitution.walk_of_not_isVar rfl)
          (Substitution.walk_of_not_isVar rfl), apart, if_pos equal]
      · cases same
    | var | op => cases same
  | op symbol lefts each =>
    cases right with
    | op other rights =>
      rw [Term.differences] at same
      split at same
      · next symbols =>
        split at same
        · next lengths =>
          subst symbols
          exact endsWith_of_differencesAll_eq_none lengths
            (fun left member _ _ => each left member) same (endsWith_of_op lengths ends)
        · cases same
      · cases same
    | var | atom => cases same

end Same

/-- The pairs of the sides of equations. -/
def pairs (equations : List (Equation A)) : List (Term A × Term A) :=
  equations.map fun equation => (equation.left, equation.right)

omit [BEq A] in
/-- The equations between arguments have the arguments as sides. -/
theorem pairs_between (crossed : Nat) {lefts rights : List (Term A)}
    (lengths : lefts.length = rights.length) (rest : List (Equation A)) :
    pairs (between crossed lefts rights rest) = lefts.zip rights ++ pairs rest := by
  induction lefts generalizing rights with
  | nil =>
    rw [List.eq_nil_of_length_eq_zero lengths.symm]
    rfl
  | cons left lefts later =>
    cases rights with
    | nil => exact nomatch lengths
    | cons right rights =>
      rw [between, pairs, List.map_cons]
      exact congrArg _ (later (Nat.succ.inj lengths))

/-- Where two terms differ, the runs from the pair of them end as those from the equations at and
behind the first place where they do. -/
def Narrows (bindings : Substitution A) (result : Except Clash (Substitution A))
    (left right : Term A) (front : Front A) : Prop :=
  ∀ (equations : List (Equation A)) (pending : List (Term A × Term A)),
    EndsWith result ⟨bindings, (left, right) :: (pairs equations ++ pending)⟩ →
      EndsWith result ⟨bindings, pairs (front equations) ++ pending⟩

/-- Where two terms differ at once, the equation between them is what is found. -/
theorem narrows_here (bindings : Substitution A) (result : Except Clash (Substitution A))
    (crossed : Nat) (left right : Term A) :
    Narrows bindings result left right (⟨left, right, crossed⟩ :: ·) :=
  fun _ _ ends => ends

/-- What runs end with depends on where walking from the sides of the next pair ends. -/
theorem endsWith_of_walk? {leftStop rightStop : Term A}
    (leftWalked : bindings.walk? left = some leftStop)
    (rightWalked : bindings.walk? right = some rightStop)
    (ends : EndsWith result ⟨bindings, (left, right) :: pending⟩) :
    EndsWith result ⟨bindings, (leftStop, rightStop) :: pending⟩ := by
  have same : pass ⟨bindings, (leftStop, rightStop) :: pending⟩ =
      pass ⟨bindings, (left, right) :: pending⟩ := by
    rw [pass_of_resolved (Substitution.walk_of_walk? leftWalked)
      (Substitution.walk_of_walk? rightWalked), pass, Substitution.walk, leftWalked,
      Substitution.walk, rightWalked, Option.getD_some, Option.getD_some]
  cases ends with
  | intro _ stop again =>
    exact .intro ⟨_, rfl⟩ (fun other passed => stop other (same.symm.trans passed))
      fun next passed => again next (same.symm.trans passed)

/-- What becomes of the runs from some equations where the first one is taken apart. -/
def Follows (result : Except Clash (Substitution A)) (bindings : Substitution A)
    (rest : List (Equation A)) : Outcome A → Prop
  | .clash reason => .error reason = result
  | .bound after => EndsWith result ⟨after, pairs rest⟩
  | .reduced equations => EndsWith result ⟨bindings, pairs (equations ++ rest)⟩
  | .unknown => True

/-- A variable is bound in a pass as it is in an equation. -/
theorem follows_bind {index : UInt64} {term : Term A} {rest : List (Equation A)}
    (passed : task.pass = bind bindings index term (pairs rest)) (ends : EndsWith result task) :
    Follows result bindings rest (Unification.bind bindings index term) := by
  rw [Unification.bind]
  rw [bind] at passed
  cases found : bindings.occurs? index term with
  | none => exact trivial
  | some appears =>
    have known : bindings.occurs index term = appears := by
      rw [Substitution.occurs, found, Option.getD_some]
    rw [known] at passed
    cases appears with
    | true => exact ends.result_eq passed
    | false => exact ends.next passed

/-- Heads that clash end a run. -/
theorem apart_eq_inr {reason : Clash} (clash : left.clash? right = some reason) :
    apart bindings left right pending = .inr (.error reason) := by
  cases left with
  | var => cases clash
  | atom payload =>
    cases right with
    | var => cases clash
    | atom other =>
      rw [Term.clash?] at clash
      rw [apart]
      split at clash
      · cases clash
      · next different => rw [if_neg different, Option.some.inj clash]
    | op => rw [apart, ← Option.some.inj clash]
  | op symbol lefts =>
    cases right with
    | var => cases clash
    | atom => rw [apart, ← Option.some.inj clash]
    | op other rights =>
      rw [Term.clash?] at clash
      rw [apart]
      split at clash
      · next symbols => rw [if_pos symbols, Option.some.inj clash]
      · next symbols =>
        rw [if_neg symbols]
        split at clash
        · next lengths => rw [if_pos lengths, Option.some.inj clash]
        · cases clash

section Differences

variable [Decidable (ReflBEq A)]

/-- Arguments are gone through up to the first place where they differ. -/
theorem endsWith_of_differencesAll {crossed : Nat} {lefts rights : List (Term A)}
    (lengths : lefts.length = rights.length)
    (each : ∀ left ∈ lefts, ∀ right front, left.differences crossed right = some front →
      Narrows bindings result left right front)
    {front : Front A} (found : Term.differencesAll crossed lefts rights = some front)
    (equations : List (Equation A))
    (ends : EndsWith result ⟨bindings, lefts.zip rights ++ (pairs equations ++ pending)⟩) :
    EndsWith result ⟨bindings, pairs (front equations) ++ pending⟩ := by
  induction lefts generalizing rights with
  | nil => exact nomatch found
  | cons left lefts later =>
    cases rights with
    | nil => exact nomatch lengths
    | cons right rights =>
      have lengths : lefts.length = rights.length := Nat.succ.inj lengths
      rw [Term.differencesAll] at found
      cases first : left.differences crossed right with
      | none =>
        rw [first] at found
        exact later lengths (fun other member => each other (List.mem_cons_of_mem _ member)) found
          (endsWith_of_differences_eq_none first ends)
      | some inner =>
        rw [first] at found
        cases found
        apply each left (List.mem_cons_self ..) right inner first
        rwa [pairs_between crossed lengths, List.append_assoc]

/-- The runs from a pair of terms that differ go to the first place where they do. -/
theorem narrows_of_differences {crossed : Nat} {front : Front A}
    (found : left.differences crossed right = some front) :
    Narrows bindings result left right front := by
  induction left using Term.induct generalizing right front with
  | var index =>
    cases right with
    | var other =>
      rw [Term.differences] at found
      split at found
      · exact nomatch found
      · exact Option.some.inj found ▸ narrows_here bindings result crossed _ _
    | atom | op => exact Option.some.inj found ▸ narrows_here bindings result crossed _ _
  | atom payload =>
    cases right with
    | atom other =>
      rw [Term.differences] at found
      split at found
      · exact nomatch found
      · exact Option.some.inj found ▸ narrows_here bindings result crossed _ _
    | var | op => exact Option.some.inj found ▸ narrows_here bindings result crossed _ _
  | op symbol lefts each =>
    cases right with
    | op other rights =>
      rw [Term.differences] at found
      split at found
      · next symbols =>
        split at found
        · next lengths =>
          subst symbols
          exact fun equations pending ends => endsWith_of_differencesAll lengths
            (fun left member _ _ => each left member) found equations (endsWith_of_op lengths ends)
        · exact Option.some.inj found ▸ narrows_here bindings result crossed _ _
      · exact Option.some.inj found ▸ narrows_here bindings result crossed _ _
    | var | atom => exact Option.some.inj found ▸ narrows_here bindings result crossed _ _

/-- The runs follow an equation whose two resolved sides clash or are compared down to a
difference. -/
theorem follows_rigid {equation : Equation A} {rest : List (Equation A)}
    (looked : pass ⟨bindings, (left, right) :: pairs rest⟩ =
      apart bindings left right (pairs rest))
    (ends : EndsWith result ⟨bindings, (left, right) :: pairs rest⟩) :
    Follows result bindings rest (match equation.crossedBelow? with
      | none => .unknown
      | some crossed =>
        match (left.locate crossed right).1 with
        | none => .reduced []
        | some front =>
          match left.clash? right with
          | some reason => .clash reason
          | none => .reduced (front [])) := by
  cases equation.crossedBelow? with
  | none => exact trivial
  | some crossed =>
    dsimp only
    rw [(left.locate crossed right).2]
    cases found : left.differences crossed right with
    | none => exact endsWith_of_differences_eq_none found ends
    | some front =>
      cases clash : left.clash? right with
      | none =>
        show EndsWith result ⟨bindings, pairs (front [] ++ rest)⟩
        rw [pairs, List.map_append]
        exact narrows_of_differences found [] (pairs rest) ends
      | some reason => exact ends.result_eq (looked.trans (apart_eq_inr clash))

/-- The runs follow what becomes of an equation between two resolved terms. -/
theorem follows_settle {equation : Equation A} {rest : List (Equation A)}
    (leftWalked : bindings.walk left = left) (rightWalked : bindings.walk right = right)
    (ends : EndsWith result ⟨bindings, (left, right) :: pairs rest⟩) :
    Follows result bindings rest (equation.settle bindings left right) := by
  have looked : pass ⟨bindings, (left, right) :: pairs rest⟩ =
      apart bindings left right (pairs rest) := pass_of_resolved leftWalked rightWalked
  cases left with
  | var index =>
    cases right with
    | var other =>
      rw [apart] at looked
      rw [Equation.settle]
      split
      · next same => exact ends.next (looked.trans (if_pos same))
      · next different => exact follows_bind (looked.trans (if_neg different)) ends
    | atom | op => exact follows_bind looked ends
  | atom payload =>
    cases right with
    | var index => exact follows_bind looked ends
    | atom | op => exact follows_rigid looked ends
  | op symbol lefts =>
    cases right with
    | var index => exact follows_bind looked ends
    | atom | op => exact follows_rigid looked ends

/-- What the runs that look at every pair end with is what the equations are solved by. -/
theorem eq_of_solve? {equations : List (Equation A)} {answer : Except Clash (Substitution A)}
    (solved : solve? bindings equations = some answer)
    (ends : EndsWith result ⟨bindings, pairs equations⟩) : answer = result := by
  have follows : ∀ {bindings : Substitution A} {equation : Equation A} {rest : List (Equation A)},
      EndsWith result ⟨bindings, pairs (equation :: rest)⟩ →
        Follows result bindings rest (equation.step bindings) := by
    intro bindings equation rest ends
    rw [Equation.step]
    cases left : bindings.walk? equation.left with
    | none => exact trivial
    | some leftStop =>
      cases right : bindings.walk? equation.right with
      | none => exact trivial
      | some rightStop =>
        exact follows_settle (Substitution.walk_of_walk? left) (Substitution.walk_of_walk? right)
          (endsWith_of_walk? left right ends)
  induction bindings, equations using solve?.induct with
  | case1 bindings =>
    rw [solve?, Option.some.injEq] at solved
    exact solved ▸ ends.result_eq rfl
  | case2 bindings equation rest reason stepped =>
    have ended := follows ends
    rw [stepped] at ended
    rw [solve?, stepped] at solved
    exact (Option.some.inj solved).symm.trans ended
  | case3 bindings equation rest after stepped later =>
    have next := follows ends
    rw [stepped] at next
    rw [solve?, stepped] at solved
    exact later solved next
  | case4 bindings equation rest equations stepped later =>
    have next := follows ends
    rw [stepped] at next
    rw [solve?, stepped] at solved
    exact later solved next
  | case5 bindings equation rest stepped =>
    rw [solve?, stepped] at solved
    cases solved

/-- Unification comes to what the runs that look at every pair end with. -/
theorem unify_eq_of_endsWith (acyclic : bindings.Acyclic)
    (ends : EndsWith result ⟨bindings, [(left, right)]⟩) :
    unify left right bindings = result :=
  eq_of_solve? (unify?_answers left right acyclic).1 ends

end Differences

/-- A pass either looks at the next pair or leaves out a pair that would have been replaced by the
pairs of some arguments with themselves. -/
theorem eq_or_of_passes {outcome : Task A ⊕ Except Clash (Substitution A)}
    (passes : task.Passes outcome) :
    outcome = task.pass ∨ ∃ (bindings : Substitution A) (arguments : List (Term A)) (pending : _),
      task.pass = .inl ⟨bindings, arguments.zip arguments ++ pending⟩ ∧
        outcome = .inl ⟨bindings, pending⟩ := by
  cases passes with
  | look => exact .inl rfl
  | @one bindings left right symbol arguments pending leftWalked rightWalked =>
    refine .inr ⟨bindings, arguments, pending, ?_, rfl⟩
    rw [pass, leftWalked, rightWalked, apart, if_neg (not_not.mpr rfl), if_neg (not_not.mpr rfl)]

/-- Bindings stay acyclic from pass to pass. -/
theorem acyclic_of_passes (acyclic : task.bindings.Acyclic) (passes : task.Passes (.inl next)) :
    next.bindings.Acyclic := by
  rcases eq_or_of_passes passes with same | ⟨bindings, arguments, pending, passed, same⟩
  · exact (lighter_of_pass acyclic same.symm).1
  · rw [Sum.inl.inj same]
    exact (lighter_of_pass acyclic passed).1

/-- Whichever pairs of one operation with itself a run leaves out, it ends as the runs that look at
every pair: these go through the arguments against themselves and bind nothing. -/
theorem ends_of_endsWith (law : ReflBEq A ∨ result ≠ .error .atoms)
    (ends : EndsWith result task) : Loop.Ends Passes result task := by
  induction ends with
  | @intro task going stop again later =>
    refine .intro ⟨_, .look task⟩ (fun other passes => ?_) fun next passes => ?_
    · rcases eq_or_of_passes passes with same | ⟨_, _, _, _, same⟩
      · exact stop other same.symm
      · cases same
    · rcases eq_or_of_passes passes with same | ⟨bindings, arguments, pending, looked, same⟩
      · exact later next same.symm
      · cases same
        exact ends_of_zip_self .look law (later _ looked)

end Unification.Task

/-- The loops and the recursion of unification end under acyclic bindings. -/
theorem Substitution.Acyclic.loopsEnd [BEq A] [ReflBEq A] {bindings : Substitution A}
    (acyclic : bindings.Acyclic) : bindings.LoopsEnd where
  toChecksEnd := acyclic.checksEnd
  reify := acyclic.reifies
  unify left right := by
    obtain ⟨result, ends⟩ := Unification.Task.exists_endsWith ⟨bindings, [(left, right)]⟩ acyclic
    rw [Unification.Task.unify_eq_of_endsWith acyclic ends]
    exact Unification.Task.ends_of_endsWith (.inl inferInstance) ends
  inside left right task path := by
    have kept : task.bindings.Acyclic := by
      induction path with
      | refl => exact acyclic
      | tail _ passes acyclic => exact Unification.Task.acyclic_of_passes acyclic passes
    exact kept.checksEnd

end Relational
