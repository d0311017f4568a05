import Relational.Proofs.Unification.Loop
import Relational.Unification.Loop

/-!
# The recursion behind the worklist

The recursive definition takes a pair of terms apart as a pass of the loop does, and goes through
the pairs that come of it before it comes back to the pairs that were put off. So it follows the
loop from pass to pass: at every task, what the loop ends with is what the recursion makes of the
pending pairs, one after another, under the bindings so far. The recursion is as deep as terms
resolve; once a bound is large enough a larger one finds the same. Runs that leave out pairs of one
operation with itself come to nothing else, except where they spare a payload the comparison with
itself and it would have failed.
-/
namespace Relational

universe u

variable {A : Type u} [BEq A]

/-- Without arguments nothing is bound. -/
theorem unifyAllRecursive?_nil (bound : Nat) (rights : List (Term A))
    (bindings : Substitution A) :
    unifyAllRecursive? bound [] rights bindings = some (.ok bindings) := by
  rw [unifyAllRecursive?]
  intro _ _ _ _ impossible
  cases impossible

/-- Without other arguments nothing is bound. -/
theorem unifyAllRecursive?_nil_right (bound : Nat) (lefts : List (Term A))
    (bindings : Substitution A) :
    unifyAllRecursive? bound lefts [] bindings = some (.ok bindings) := by
  rw [unifyAllRecursive?]
  intro _ _ _ _ _ impossible
  cases impossible

/-- Arguments are unified one after another, up to the first clash. -/
theorem unifyAllRecursive?_cons (bound : Nat) (left right : Term A) (lefts rights : List (Term A))
    (bindings : Substitution A) :
    unifyAllRecursive? bound (left :: lefts) (right :: rights) bindings =
      (unifyRecursive? bound left right bindings).bind fun
        | .error reason => some (.error reason)
        | .ok after => unifyAllRecursive? bound lefts rights after := by
  rw [unifyAllRecursive?]
  rfl

/-- Arguments that are unified are so within every bound that unifies each of them alike. -/
theorem unifyAllRecursive?_of_each {bound limit : Nat}
    (each : ∀ (left right : Term A) (bindings : Substitution A) (answer : _),
      unifyRecursive? bound left right bindings = some answer →
        unifyRecursive? limit left right bindings = some answer)
    {lefts rights : List (Term A)} {bindings : Substitution A}
    {answer : Except Clash (Substitution A)}
    (unified : unifyAllRecursive? bound lefts rights bindings = some answer) :
    unifyAllRecursive? limit lefts rights bindings = some answer := by
  induction lefts generalizing rights bindings with
  | nil => rwa [unifyAllRecursive?_nil] at unified ⊢
  | cons left lefts later =>
    cases rights with
    | nil => rwa [unifyAllRecursive?_nil_right] at unified ⊢
    | cons right rights =>
      rw [unifyAllRecursive?_cons] at unified ⊢
      cases first : unifyRecursive? bound left right bindings with
      | none =>
        rw [first] at unified
        cases unified
      | some result =>
        rw [first, Option.bind_some] at unified
        rw [each left right bindings result first, Option.bind_some]
        cases result with
        | error reason => exact unified
        | ok after => exact later unified

/-- What is found within a bound is found within a larger one. -/
theorem unifyRecursive?_mono {bound limit : Nat} (larger : bound ≤ limit) (left right : Term A)
    (bindings : Substitution A) (answer : Except Clash (Substitution A))
    (unified : unifyRecursive? bound left right bindings = some answer) :
    unifyRecursive? limit left right bindings = some answer := by
  induction bound generalizing limit left right bindings answer with
  | zero =>
    rw [unifyRecursive?] at unified
    cases unified
  | succ bound ih =>
    cases limit with
    | zero => exact absurd larger (Nat.not_succ_le_zero bound)
    | succ limit =>
      have each := ih (Nat.le_of_succ_le_succ larger)
      rw [unifyRecursive?] at unified ⊢
      cases leftWalked : bindings.walk? left with
      | none =>
        rw [leftWalked] at unified
        cases unified
      | some leftStop =>
        cases rightWalked : bindings.walk? right with
        | none =>
          rw [leftWalked, rightWalked] at unified
          cases unified
        | some rightStop =>
          rw [leftWalked, rightWalked] at unified
          cases leftStop with
          | var index => cases rightStop <;> exact unified
          | atom payload => cases rightStop <;> exact unified
          | op symbol lefts =>
            cases rightStop with
            | var => exact unified
            | atom => exact unified
            | op other rights =>
              simp only [Option.bind_eq_bind, Option.bind_some] at unified ⊢
              split
              · next different => rwa [if_pos different] at unified
              · next same =>
                rw [if_neg same] at unified
                split
                · next different => rwa [if_pos different] at unified
                · next lengths =>
                  rw [if_neg lengths] at unified
                  exact unifyAllRecursive?_of_each each unified

namespace Unification.Task

variable {bindings : Substitution A} {left right : Term A} {pending : List (Term A × Term A)}

/-- What the recursion makes of the pending pairs of a task, one after another. -/
def recursive? (bound : Nat) (task : Task A) : Option (Except Clash (Substitution A)) :=
  unifyAllRecursive? bound (task.pending.map Prod.fst) (task.pending.map Prod.snd) task.bindings

/-- How the recursion goes on with the pending pairs after the pairs before them. -/
def continue? (bound : Nat) (pending : List (Term A × Term A)) :
    Except Clash (Substitution A) → Option (Except Clash (Substitution A))
  | .error reason => some (.error reason)
  | .ok after => recursive? bound ⟨after, pending⟩

/-- Where no pairs are pending the bindings are the answer. -/
theorem recursive?_nil (bound : Nat) (bindings : Substitution A) :
    recursive? bound ⟨bindings, []⟩ = some (.ok bindings) :=
  unifyAllRecursive?_nil bound [] bindings

/-- The first pair comes before the others. -/
theorem recursive?_cons (bound : Nat) (bindings : Substitution A) (left right : Term A)
    (pending : List (Term A × Term A)) :
    recursive? bound ⟨bindings, (left, right) :: pending⟩ =
      (unifyRecursive? bound left right bindings).bind (continue? bound pending) := by
  rw [recursive?, List.map_cons, List.map_cons, unifyAllRecursive?_cons]
  rfl

/-- Some pairs come before the others. -/
theorem recursive?_append (bound : Nat) (bindings : Substitution A)
    (before pending : List (Term A × Term A)) :
    recursive? bound ⟨bindings, before ++ pending⟩ =
      (recursive? bound ⟨bindings, before⟩).bind (continue? bound pending) := by
  induction before generalizing bindings with
  | nil =>
    rw [recursive?_nil, Option.bind_some, List.nil_append, continue?]
  | cons pair before later =>
    obtain ⟨left, right⟩ := pair
    rw [List.cons_append, recursive?_cons, recursive?_cons, Option.bind_assoc]
    congr 1
    funext result
    cases result with
    | error reason => rfl
    | ok after => exact later after

/-- The pairs of arguments are unified as the arguments are. -/
theorem recursive?_zip (bound : Nat) (bindings : Substitution A) {lefts rights : List (Term A)}
    (lengths : lefts.length = rights.length) :
    recursive? bound ⟨bindings, lefts.zip rights⟩ =
      unifyAllRecursive? bound lefts rights bindings := by
  rw [recursive?, List.map_fst_zip (Nat.le_of_eq lengths),
    List.map_snd_zip (Nat.le_of_eq lengths.symm)]

/-- What is made of pairs within a bound is made of them within a larger one. -/
theorem recursive?_mono {bound limit : Nat} (larger : bound ≤ limit) {task : Task A}
    {answer : Except Clash (Substitution A)} (found : task.recursive? bound = some answer) :
    task.recursive? limit = some answer :=
  unifyAllRecursive?_of_each (unifyRecursive?_mono larger) found

/-- What the recursion finds for a pair agrees with what a pass comes to: both come to one clash, or
the recursion goes on with the pairs that the pass puts before the pending ones. -/
def Agrees (bound : Nat) (pending : List (Term A × Term A))
    (found : Option (Except Clash (Substitution A))) :
    Task A ⊕ Except Clash (Substitution A) → Prop
  | .inr answer => ∃ reason, answer = .error reason ∧ found = some (.error reason)
  | .inl next => ∃ before, next.pending = before ++ pending ∧
      found = recursive? bound ⟨next.bindings, before⟩

/-- Where nothing is to be done the recursion agrees. -/
theorem agrees_done (bound : Nat) (bindings : Substitution A) (pending : List (Term A × Term A)) :
    Agrees bound pending (some (.ok bindings)) (.inl ⟨bindings, pending⟩) :=
  ⟨[], rfl, (recursive?_nil bound bindings).symm⟩

/-- The recursion binds a variable as a pass does. -/
theorem agrees_bind (acyclic : bindings.Acyclic) (bound : Nat) (index : UInt64) (term : Term A)
    (pending : List (Term A × Term A)) :
    Agrees bound pending (bindings.bindChecked? index term)
      (bind bindings index term pending) := by
  rw [Substitution.bindChecked?, acyclic.occurs?_eq_some, Option.map_some, bind]
  split
  · next appears =>
    rw [appears]
    exact ⟨_, rfl, rfl⟩
  · next absent =>
    rw [absent]
    exact agrees_done bound _ pending

/-- The recursion takes two operations apart as a pass does. -/
theorem agrees_op (bound : Nat) (bindings : Substitution A) (symbol other : String)
    (lefts rights : List (Term A)) (pending : List (Term A × Term A)) :
    Agrees bound pending
      (if symbol ≠ other then some (.error (.symbols symbol other))
      else if lefts.length ≠ rights.length then
        some (.error (.arities symbol lefts.length rights.length))
      else unifyAllRecursive? bound lefts rights bindings)
      (apart bindings (.op symbol lefts) (.op other rights) pending) := by
  rw [apart]
  split
  · exact ⟨_, rfl, rfl⟩
  · split
    · exact ⟨_, rfl, rfl⟩
    · next lengths =>
      have lengths : lefts.length = rights.length := not_not.mp lengths
      exact ⟨lefts.zip rights, rfl, (recursive?_zip bound bindings lengths).symm⟩

/-- The recursion agrees with every pass. -/
theorem agrees_pass (acyclic : bindings.Acyclic) (bound : Nat) (left right : Term A)
    (pending : List (Term A × Term A)) :
    Agrees bound pending (unifyRecursive? (bound + 1) left right bindings)
      (pass ⟨bindings, (left, right) :: pending⟩) := by
  rw [pass, unifyRecursive?, acyclic.walk?_eq left, acyclic.walk?_eq right]
  cases bindings.walk left with
  | var index =>
    cases bindings.walk right with
    | var other =>
      show Agrees bound pending (if index == other then some (.ok bindings)
        else bindings.bindChecked? index (.var other)) _
      rw [apart]
      split
      · exact agrees_done bound bindings pending
      · exact agrees_bind acyclic bound index _ pending
    | atom | op => exact agrees_bind acyclic bound index _ pending
  | atom payload =>
    cases bindings.walk right with
    | var index => exact agrees_bind acyclic bound index _ pending
    | atom other =>
      show Agrees bound pending
        (some (if payload == other then .ok bindings else .error .atoms)) _
      rw [apart]
      split
      · exact agrees_done bound bindings pending
      · exact ⟨_, rfl, rfl⟩
    | op => exact ⟨_, rfl, rfl⟩
  | op symbol lefts =>
    cases bindings.walk right with
    | var index => exact agrees_bind acyclic bound index _ pending
    | atom => exact ⟨_, rfl, rfl⟩
    | op other rights => exact agrees_op bound bindings symbol other lefts rights pending

/-- The recursion goes on as a pass does: what it makes of the pairs after the pass within a bound
it makes of the pairs before within the next bound. -/
theorem recursive?_of_pass (acyclic : bindings.Acyclic) {bound : Nat} {next : Task A}
    {answer : Except Clash (Substitution A)}
    (passed : pass ⟨bindings, (left, right) :: pending⟩ = .inl next)
    (found : next.recursive? bound = some answer) :
    recursive? (bound + 1) ⟨bindings, (left, right) :: pending⟩ = some answer := by
  have agrees := agrees_pass acyclic bound left right pending
  rw [passed] at agrees
  obtain ⟨before, order, head⟩ := agrees
  obtain ⟨after, waiting⟩ := next
  subst order
  rw [recursive?_append] at found
  rw [recursive?_cons, head]
  cases first : recursive? bound ⟨after, before⟩ with
  | none =>
    rw [first] at found
    cases found
  | some result =>
    rw [first, Option.bind_some] at found
    rw [Option.bind_some]
    cases result with
    | error reason => exact found
    | ok last => exact recursive?_mono (Nat.le_succ bound) found

/-- From acyclic bindings the runs that look at every pair end, and what they end with is what the
recursion makes of the pairs, within every bound that is large enough. Tasks get lighter from pass
to pass, and one more than the bound after a pass is enough. -/
theorem exists_recursive? (task : Task A) (acyclic : task.bindings.Acyclic) :
    ∃ result bound, EndsWith result task ∧
      ∀ limit, bound ≤ limit → task.recursive? limit = some result := by
  induction task using lighter_wellFounded.induction with
  | _ task lighter =>
    obtain ⟨bindings, pending⟩ := task
    cases passed : pass ⟨bindings, pending⟩ with
    | inr result =>
      refine ⟨result, 1, Loop.ends_of_stop passed, fun limit large => ?_⟩
      obtain ⟨bound, rfl⟩ := Nat.exists_eq_add_of_le' large
      cases pending with
      | nil =>
        cases passed
        exact recursive?_nil (bound + 1) bindings
      | cons pair pending =>
        have agrees := agrees_pass acyclic bound pair.1 pair.2 pending
        rw [passed] at agrees
        obtain ⟨reason, rfl, head⟩ := agrees
        rw [recursive?_cons, head, Option.bind_some, continue?]
    | inl next =>
      obtain ⟨after, less⟩ := lighter_of_pass acyclic passed
      obtain ⟨result, bound, ends, found⟩ := lighter next less after
      refine ⟨result, bound + 1, Loop.ends_of_again passed ends, fun limit large => ?_⟩
      obtain ⟨extra, rfl⟩ := Nat.exists_eq_add_of_le' large
      cases pending with
      | nil => cases passed
      | cons pair pending =>
        exact recursive?_of_pass acyclic passed (found (extra + bound) (Nat.le_add_left ..))

/-- What the recursion makes of one pending pair is what it finds for the pair. -/
theorem recursive?_singleton (bound : Nat) (left right : Term A) (bindings : Substitution A) :
    recursive? bound ⟨bindings, [(left, right)]⟩ = unifyRecursive? bound left right bindings := by
  have last : continue? bound ([] : List (Term A × Term A)) = some := by
    funext answer
    cases answer with
    | error reason => rfl
    | ok after => exact recursive?_nil bound after
  rw [recursive?_cons, last, Option.bind_fun_some]

end Unification.Task

/-- The recursion finds that an operation of a payload that differs from itself does so too. -/
theorem unifyRecursive?_of_unlike {payload : A} (unlike : (payload == payload) = false)
    (symbol : String) (bindings : Substitution A) (bound : Nat) :
    unifyRecursive? (bound + 2) (.op symbol [.atom payload]) (.op symbol [.atom payload]) bindings =
      some (.error .atoms) := by
  have walked {term : Term A} (rigid : term.isVar = false) : bindings.walk? term = some term :=
    Unification.Equation.walk?_of_not_isVar rigid
  have inner : unifyRecursive? (bound + 1) (.atom payload) (.atom payload) bindings =
      some (.error .atoms) := by
    rw [unifyRecursive?, walked rfl]
    simp [unlike]
  rw [unifyRecursive?, walked rfl]
  simp [unifyAllRecursive?_cons, inner]

section Answers

variable {left right : Term A} {bindings : Substitution A}

/-- What the recursion finds within one bound and within another is the same. A bound that is larger
than both finds what each of them finds. -/
theorem unifyRecursive?_unique {bound limit : Nat} {answer other : Except Clash (Substitution A)}
    (found : unifyRecursive? bound left right bindings = some answer)
    (there : unifyRecursive? limit left right bindings = some other) : answer = other := by
  have here := unifyRecursive?_mono (Nat.le_max_left bound limit) left right bindings answer found
  have there := unifyRecursive?_mono (Nat.le_max_right bound limit) left right bindings other there
  exact Option.some.inj (here.symm.trans there)

/-- The recursion finds what the runs that look at every pair end with, within every bound that is
large enough. -/
theorem exists_unifyRecursive? (left right : Term A) (acyclic : bindings.Acyclic) :
    ∃ answer bound, Unification.Task.EndsWith answer ⟨bindings, [(left, right)]⟩ ∧
      ∀ limit, bound ≤ limit → unifyRecursive? limit left right bindings = some answer := by
  obtain ⟨answer, bound, ends, found⟩ :=
    Unification.Task.exists_recursive? ⟨bindings, [(left, right)]⟩ acyclic
  simp only [Unification.Task.recursive?_singleton] at found
  exact ⟨answer, bound, ends, found⟩

/-- What the recursion finds within some bound is what unification comes to. -/
theorem unify_eq_of_unifyRecursive? [Decidable (ReflBEq A)] (acyclic : bindings.Acyclic)
    {limit : Nat} {answer : Except Clash (Substitution A)}
    (there : unifyRecursive? limit left right bindings = some answer) :
    unify left right bindings = answer := by
  obtain ⟨result, bound, ends, found⟩ := exists_unifyRecursive? left right acyclic
  have same := unifyRecursive?_unique (found bound (Nat.le_refl bound)) there
  exact (Unification.Task.unify_eq_of_endsWith acyclic ends).trans same

/-- Terms that lead to one variable unify as they are. -/
theorem unify_of_walk?_var [Decidable (ReflBEq A)] (acyclic : bindings.Acyclic) {index : UInt64}
    (leftWalked : bindings.walk? left = some (.var index))
    (rightWalked : bindings.walk? right = some (.var index)) :
    unify left right bindings = .ok bindings := by
  have found : unifyRecursive? 1 left right bindings = some (.ok bindings) := by
    rw [unifyRecursive?, leftWalked, rightWalked]
    simp
  exact unify_eq_of_unifyRecursive? acyclic found

/-- Terms that lead to atoms unify as they are if the payloads are equal, and clash otherwise. -/
theorem unify_of_walk?_atom [Decidable (ReflBEq A)] (acyclic : bindings.Acyclic)
    {payload other : A}
    (leftWalked : bindings.walk? left = some (.atom payload))
    (rightWalked : bindings.walk? right = some (.atom other)) :
    unify left right bindings = if payload == other then .ok bindings else .error .atoms := by
  have found : unifyRecursive? 1 left right bindings =
      some (if payload == other then .ok bindings else .error .atoms) := by
    rw [unifyRecursive?, leftWalked, rightWalked]
    rfl
  exact unify_eq_of_unifyRecursive? acyclic found

/-- Where nothing is bound a variable unifies with itself. -/
theorem unify_var_self [Decidable (ReflBEq A)] :
    unify (.var 0 : Term A) (.var 0) IntMap.empty = .ok IntMap.empty :=
  unify_of_walk?_var Substitution.acyclic_empty (by cbv) (by cbv)

/-- Where nothing is bound a variable is bound to an atom. -/
theorem unify_var_atom [Decidable (ReflBEq A)] (payload : A) :
    unify (.var 0) (.atom payload) IntMap.empty =
      .ok (IntMap.insert IntMap.empty 0 (.atom payload)) :=
  unify_eq_ok_of_step (by cbv)

/-- A variable that is bound to a payload that differs from itself does not unify with itself. -/
theorem unify_var_self_of_unlike [Decidable (ReflBEq A)] {payload : A}
    (unlike : (payload == payload) = false) :
    unify (.var 0) (.var 0) (IntMap.insert IntMap.empty 0 (.atom payload)) = .error .atoms := by
  have acyclic := Substitution.acyclic_empty.unify (unify_var_atom payload)
  have walked : Substitution.walk? (IntMap.insert IntMap.empty 0 (.atom payload)) (.var 0) =
      some (.atom payload) := by cbv
  rw [unify_of_walk?_atom acyclic walked walked, unlike, if_neg Bool.false_ne_true]

/-- Unification is the recursion from left to right. Under acyclic bindings the recursion comes to
an end with one answer, the same bindings or the same clash that unification and the worklist come
to if they look at every pair, whatever equality payloads have. This is the answer of every run of
the loop, whichever pairs of one operation with itself it leaves out, if payloads are equal to
themselves or the answer is not a clash of two payloads. -/
theorem unify_eq_recursion [Decidable (ReflBEq A)] (left right : Term A)
    (acyclic : bindings.Acyclic) :
    ∃ answer,
      (∃ bound, ∀ limit, bound ≤ limit →
        unifyRecursive? limit left right bindings = some answer) ∧
      (∀ limit other, unifyRecursive? limit left right bindings = some other → other = answer) ∧
      unify? left right bindings = some answer ∧ unify left right bindings = answer ∧
      Loop.Ends (fun task outcome => Unification.Task.pass task = outcome) answer
        ⟨bindings, [(left, right)]⟩ ∧
      (ReflBEq A ∨ answer ≠ .error .atoms →
        Loop.Ends Unification.Task.Passes answer ⟨bindings, [(left, right)]⟩) := by
  obtain ⟨answer, bound, ends, found⟩ := exists_unifyRecursive? left right acyclic
  have same := Unification.Task.unify_eq_of_endsWith acyclic ends
  refine ⟨answer, ⟨bound, found⟩, fun limit other there => ?_, ?_, same, ends, fun law => ?_⟩
  · exact unifyRecursive?_unique there (found bound (Nat.le_refl bound))
  · exact same ▸ (unify?_answers left right acyclic).1
  · exact Unification.Task.ends_of_endsWith law ends

end Answers

/-- With `v1` bound to `g(v0)`, unifying `f(v0, v1, v0)` with `f(v2, g(5), g(v3))` binds `v0` to
`v2` and, as `v1` leads to `g(v0)`, `v2` to `5`, before it meets `5` against `g(v3)`. -/
theorem clash_behind_two_bindings :
    let bindings : Substitution Int64 := IntMap.insert IntMap.empty 1 (.op "g" [.var 0])
    let left : Term Int64 := .op "f" [.var 0, .var 1, .var 0]
    let right : Term Int64 := .op "f" [.var 2, .op "g" [.atom 5], .op "g" [.var 3]]
    bindings.Acyclic ∧ unify left right bindings = .error .kinds ∧
      (∃ bound, ∀ limit, bound ≤ limit →
        unifyRecursive? limit left right bindings = some (.error .kinds)) ∧
      Loop.Ends Unification.Task.Passes (.error .kinds) ⟨bindings, [(left, right)]⟩ := by
  intro bindings left right
  have acyclic : bindings.Acyclic :=
    Substitution.acyclic_empty.insert_of_occurs (IntMap.get?_empty 1) (by cbv)
  obtain ⟨answer, found, only, _, same, _, every⟩ := unify_eq_recursion left right acyclic
  have shallow : unifyRecursive? 5 left right bindings = some (.error .kinds) := by cbv
  have clashed := only 5 _ shallow
  subst clashed
  exact ⟨acyclic, same, found, every (.inl inferInstance)⟩

/-- A floating point number that is none differs from itself. So the recursion and `unify` do not
unify an operation of it with itself, but a run that leaves the pair out comes to the bindings it
began with. -/
theorem shortcut_past_number_unlike_itself :
    let term : Term Float := .op "f" [.atom (0.0 / 0.0)]
    let empty : Substitution Float := IntMap.empty
    empty.Acyclic ∧
      Unification.Task.Passes ⟨empty, [(term, term)]⟩ (.inl ⟨empty, []⟩) ∧
      Unification.Task.Passes ⟨empty, []⟩ (.inr (.ok empty)) ∧
      unify term term empty = .error .atoms ∧
      ∃ bound, ∀ limit, bound ≤ limit →
        unifyRecursive? limit term term empty = some (.error .atoms) := by
  intro term empty
  have acyclic : empty.Acyclic := Substitution.acyclic_empty
  have unlike : ((0.0 / 0.0 : Float) == 0.0 / 0.0) = false := by decide
  have shallow := unifyRecursive?_of_unlike unlike "f" empty 0
  refine ⟨acyclic, .one rfl rfl, .look _, unify_eq_of_unifyRecursive? acyclic shallow, 2, ?_⟩
  exact fun limit large => unifyRecursive?_mono large term term empty _ shallow

end Relational
