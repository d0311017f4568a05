import Mathlib.Data.Multiset.Bind
import Mathlib.Data.Set.Lattice
import Relational.Proofs.Goal.Enumeration
import Relational.Proofs.Unification.Recursion

/-!
# The order of goals

A goal holds in some number of ways, each of them a set of equations that is chosen along the
disjunctions, and as far as solutions go a way is the set of the valuations that satisfy its
equations. The ways of a disjunction are those of its goals together, and the ways of a conjunction
are one way of each goal at a time, so neither depends on the order of goals. The answers from a
state are the ways that leave some solution of its bindings, one for each: which variable is bound
to which term depends on the order of the equations, but not what solves them.
-/
namespace Relational

/-!
## Reordered goals

Conjunctions and disjunctions do not depend on the order of their goals as logic, but searches go
through the goals in that order. Here a goal is compared with one that has the goals of any
conjunctions and disjunctions in another order, at any depth and also below delayed goals, which
have to be finite when they are unfolded. States are compared by what they say about variables:
how they say it depends on the order of the equations that led to them.
-/

variable {A δ δ' : Type}

/-- The second goal is the first one with its conjunctions and disjunctions in another order. Below
their delayed parts, which each unfold by the names of a program, both are finite trees of
equations, conjunctions and disjunctions. -/
inductive Goal.Reorders (program : Program A δ) (program' : Program A δ') :
    Goal A δ → Goal A δ' → Prop where
  /-- An equation is kept. -/
  | unify (left right : Term A) : Reorders program program' (.unify left right) (.unify left right)
  /-- The goals of a conjunction are reordered one by one and put into another order. -/
  | conjunction {goals : List (Goal A δ)} {same others : List (Goal A δ')}
    (each : List.Forall₂ (Reorders program program') goals same) (order : same.Perm others) :
    Reorders program program' (.conjunction goals) (.conjunction others)
  /-- The goals of a disjunction are reordered one by one and put into another order. -/
  | disjunction {goals : List (Goal A δ)} {same others : List (Goal A δ')}
    (each : List.Forall₂ (Reorders program program') goals same) (order : same.Perm others) :
    Reorders program program' (.disjunction goals) (.disjunction others)
  /-- A delayed goal becomes one that unfolds to a goal in another order. -/
  | delay {name : δ} {name' : δ'}
    (inner : Reorders program program' (program name).goal (program' name').goal) :
    Reorders program program' (.delay name) (.delay name')

/-- Two states know the same variables, and the same valuations solve their bindings. -/
structure State.Agrees [BEq A] (one other : State A) : Prop where
  /-- As many variables have been handed out. -/
  freshCount : one.freshCount = other.freshCount
  /-- The bindings have the same solutions. -/
  solutions : ∀ valuation : Valuation A,
    valuation.Solves one.substitution ↔ valuation.Solves other.substitution

/-! ## Ways of answers -/

/-- The ways in which a goal holds: for each of them the valuations that satisfy it. -/
abbrev Ways (A : Type) := Multiset (Set (Valuation A))

namespace Ways

/-- A way of the one together with a way of the other, each with each. -/
def meet (first second : Ways A) : Ways A :=
  first.bind fun one => second.map fun other => one ∩ other

/-- One way of each of some, in every choice. -/
def meetAll (all : List (Ways A)) : Ways A := all.foldr meet {Set.univ}

open Classical in
/-- The ways that leave something of a set, cut down to it. -/
noncomputable def within (ways : Ways A) (bounds : Set (Valuation A)) : Ways A :=
  (ways.map (bounds ∩ ·)).filter Set.Nonempty

variable (first second third : Ways A) (bounds : Set (Valuation A))

/-- It makes no difference which side comes first. -/
theorem meet_comm : meet first second = meet second first :=
  calc meet first second
    _ = second.bind fun other => first.map fun one => one ∩ other := Multiset.bind_map_comm _ _
    _ = meet second first := Multiset.bind_congr fun other _ =>
      Multiset.map_congr rfl fun one _ => Set.inter_comm one other

/-- It makes no difference which two of three sides meet first. -/
theorem meet_assoc : meet (meet first second) third = meet first (meet second third) := by
  simp only [meet, Multiset.bind_assoc, Multiset.bind_map, Multiset.map_bind, Multiset.map_map,
    Function.comp_def, Set.inter_assoc]

/-- Meeting the way without equations changes nothing. -/
theorem univ_meet : meet {Set.univ} first = first := by
  simp [meet]

/-- The order of what meets makes no difference. -/
theorem meetAll_eq_of_perm {all others : List (Ways A)} (order : all.Perm others) :
    meetAll all = meetAll others := by
  have swapped : LeftCommutative (meet (A := A)) := by
    refine ⟨fun first second third => ?_⟩
    rw [← meet_assoc, meet_comm first second, meet_assoc]
  exact order.foldr_eq _

/-- Ways that are put together are cut down separately. -/
theorem within_add :
    (first + second).within bounds = first.within bounds + second.within bounds := by
  classical
  rw [within, Multiset.map_add, Multiset.filter_add]
  rfl

/-- Nothing is left of ways within a set where nothing is left of the set. -/
theorem within_eq_zero (empty : ¬ bounds.Nonempty) : first.within bounds = 0 := by
  classical
  refine Multiset.filter_eq_nil.mpr fun way member left => empty ?_
  obtain ⟨other, _, rfl⟩ := Multiset.mem_map.mp member
  exact left.mono Set.inter_subset_left

/-- Nothing is left of no ways. -/
theorem within_zero : (0 : Ways A).within bounds = 0 := by
  rw [within, Multiset.map_zero, Multiset.filter_zero]

/-- What is left of one way is what it has in common with the set. -/
theorem within_singleton {way : Set (Valuation A)} (left : (bounds ∩ way).Nonempty) :
    within {way} bounds = {bounds ∩ way} := by
  rw [within, Multiset.map_singleton, Multiset.filter_singleton, if_pos left]

/-- Nothing is left of a way that has nothing in common with the set. -/
theorem within_singleton_eq_zero {way : Set (Valuation A)} (empty : ¬ (bounds ∩ way).Nonempty) :
    within {way} bounds = 0 := by
  rw [within, Multiset.map_singleton, Multiset.filter_singleton, if_neg empty]
  rfl

/-- Ways that meet are cut down by one side first and then by what is left of it. -/
theorem within_meet :
    (meet first second).within bounds = (first.within bounds).bind second.within := by
  classical
  rw [within, meet, Multiset.map_bind, Multiset.filter_bind, within, Multiset.bind_filter,
    Multiset.bind_map]
  refine Multiset.bind_congr fun one _ => ?_
  by_cases left : (bounds ∩ one).Nonempty
  · rw [if_pos left, within, Multiset.map_map]
    simp only [Function.comp_def, Set.inter_assoc]
  · rw [if_neg left, ← within_eq_zero second _ left, within, Multiset.map_map]
    simp only [Function.comp_def, Set.inter_assoc]

end Ways

variable [BEq A]

namespace State

/-- The valuations that solve the bindings of a state. -/
def solutions (state : State A) : Set (Valuation A) :=
  {valuation | valuation.Solves state.substitution}

/-- Some states are the answers from a state where a goal holds in some ways: one for each of the
ways that has a solution in common with the state, with just these solutions. -/
structure Splits (start : State A) (ways : Ways A) (states : List (State A)) : Prop where
  /-- Bindings stay acyclic. -/
  acyclic : ∀ state ∈ states, state.substitution.Acyclic
  /-- No variables are handed out. -/
  freshCount : ∀ state ∈ states, state.freshCount = start.freshCount
  /-- Each state has the solutions of one way. -/
  solutions : ((states.map solutions : List (Set (Valuation A))) : Ways A) =
    ways.within start.solutions

variable {start : State A} {ways : Ways A} {states : List (State A)}

/-- An acyclic state has a solution. -/
theorem solutions_nonempty [ReflBEq A] {state : State A} (acyclic : state.substitution.Acyclic) :
    state.solutions.Nonempty :=
  ⟨_, acyclic.value_solves⟩

/-- Without ways there are no answers. -/
theorem splits_zero (start : State A) : start.Splits 0 [] where
  acyclic _ member := nomatch member
  freshCount _ member := nomatch member
  solutions := (Ways.within_zero start.solutions).symm

/-- The way without equations leaves a state as it is. -/
theorem splits_univ [ReflBEq A] (acyclic : start.substitution.Acyclic) :
    start.Splits {Set.univ} [start] where
  acyclic state member := List.mem_singleton.mp member ▸ acyclic
  freshCount state member := List.mem_singleton.mp member ▸ rfl
  solutions := by
    have same := Set.inter_univ start.solutions
    rw [Ways.within_singleton _ (same.symm ▸ solutions_nonempty acyclic), same]
    rfl

/-- Of an equation there is one answer, or none if nothing solves it with the bindings so far. -/
theorem splits_unify [EquivBEq A] {left right : Term A} (acyclic : start.substitution.Acyclic) :
    start.Splits {{valuation | valuation.Equates left right}}
      (match Relational.unify left right start.substitution with
        | .ok substitution => [{ start with substitution }]
        | .error _ => []) := by
  cases unified : Relational.unify left right start.substitution with
  | ok substitution =>
    have after := acyclic.unify unified
    let answer : State A := { start with substitution }
    have same : start.solutions ∩ {valuation | valuation.Equates left right} = answer.solutions :=
      Set.ext fun valuation => (solves_of_unify acyclic unified valuation).symm
    have left : answer.solutions.Nonempty := solutions_nonempty after
    refine ⟨fun state member => List.mem_singleton.mp member ▸ after,
      fun state member => List.mem_singleton.mp member ▸ rfl, ?_⟩
    rw [Ways.within_singleton _ (same.symm ▸ left), same]
    rfl
  | error reason =>
    refine ⟨fun _ member => (nomatch member), fun _ member => (nomatch member), ?_⟩
    rw [Ways.within_singleton_eq_zero]
    · rfl
    · rintro ⟨valuation, solves, equates⟩
      exact not_equates_of_unify acyclic unified valuation solves equates

/-- The answers for two goals together are the answers for the one and for the other. -/
theorem Splits.append {more : Ways A} {others : List (State A)} (first : start.Splits ways states)
    (second : start.Splits more others) : start.Splits (ways + more) (states ++ others) where
  acyclic state member := (List.mem_append.mp member).elim (first.acyclic state)
    (second.acyclic state)
  freshCount state member := (List.mem_append.mp member).elim (first.freshCount state)
    (second.freshCount state)
  solutions := by
    rw [List.map_append, ← Multiset.coe_add, first.solutions, second.solutions, Ways.within_add]

/-- The answers for one goal after another are the answers for the other one from each answer for
the first. -/
theorem Splits.flatMap {more : Ways A} {made : State A → List (State A)}
    (first : start.Splits ways states) (second : ∀ state ∈ states, state.Splits more (made state)) :
    start.Splits (ways.meet more) (states.flatMap made) where
  acyclic answer member := by
    obtain ⟨state, there, member⟩ := List.mem_flatMap.mp member
    exact (second state there).acyclic answer member
  freshCount answer member := by
    obtain ⟨state, there, member⟩ := List.mem_flatMap.mp member
    exact ((second state there).freshCount answer member).trans (first.freshCount state there)
  solutions := by
    rw [Ways.within_meet, ← first.solutions, List.map_flatMap, ← Multiset.map_coe,
      Multiset.bind_map, ← Multiset.coe_bind]
    exact Multiset.bind_congr fun state member =>
      (second state (Multiset.mem_coe.mp member)).solutions

end State

namespace Goal

variable [EquivBEq A] {program : Program A δ} {program' : Program A δ'}
  {unfold : δ → State A → Option (List (State A))} {goals : List (Goal A δ)}
  {start : State A} {all : List (Ways A)}

/-- The answers of a goal from every acyclic state are known, and they are those of some ways. -/
def Counted (unfold : δ → State A → Option (List (State A))) (goal : Goal A δ) (ways : Ways A) :
    Prop :=
  ∀ start : State A, start.substitution.Acyclic →
    ∃ states, goal.listWith? unfold start = some states ∧ start.Splits ways states

/-- A disjunction holds in the ways of its goals. -/
theorem exists_listAny? (counted : List.Forall₂ (Counted unfold) goals all)
    (acyclic : start.substitution.Acyclic) :
    ∃ states, listAny? unfold goals start = some states ∧ start.Splits all.sum states := by
  induction counted with
  | nil => exact ⟨[], by rw [listAny?], State.splits_zero start⟩
  | @cons goal ways goals all head _ later =>
    obtain ⟨first, here, splits⟩ := head start acyclic
    obtain ⟨rest, there, others⟩ := later
    refine ⟨first ++ rest, ?_, ?_⟩
    · rw [listAny?, here, there]
      rfl
    · rw [List.sum_cons]
      exact splits.append others

/-- Answers go on through a conjunction in one way of each goal. -/
theorem exists_listAll? (counted : List.Forall₂ (Counted unfold) goals all) {ways : Ways A}
    {states : List (State A)} (splits : start.Splits ways states) :
    ∃ answers, listAll? unfold goals states = some answers ∧
      start.Splits (ways.meet (.meetAll all)) answers := by
  induction counted generalizing ways states with
  | nil =>
    refine ⟨states, by rw [listAll?], ?_⟩
    show start.Splits (ways.meet {Set.univ}) states
    rwa [Ways.meet_comm, Ways.univ_meet]
  | @cons goal more goals all head _ later =>
    have each : ∀ state ∈ states, goal.listWith? unfold state =
          some ((goal.listWith? unfold state).getD []) ∧
        state.Splits more ((goal.listWith? unfold state).getD []) := by
      intro state member
      obtain ⟨found, here, splits⟩ := head state (splits.acyclic state member)
      rw [here]
      exact ⟨rfl, splits⟩
    have here := forEach?_eq_some_iff.mpr ⟨fun state member => (each state member).1, rfl⟩
    obtain ⟨answers, there, splits⟩ :=
      later (splits.flatMap fun state member => (each state member).2)
    refine ⟨answers, ?_, ?_⟩
    · rw [listAll?, here]
      exact there
    · rwa [Ways.meet_assoc] at splits

/-- A goal has finitely many answers from every acyclic state, and they are those of some ways. -/
def Amounts (program : Program A δ) (goal : Goal A δ) (ways : Ways A) : Prop :=
  ∃ enough, ∀ depth, enough ≤ depth → Counted (listDelayed? program depth) goal ways

/-- One depth is enough for several goals. -/
theorem exists_depth (amounts : List.Forall₂ (Amounts program) goals all) :
    ∃ enough, ∀ depth, enough ≤ depth →
      List.Forall₂ (Counted (listDelayed? program depth)) goals all := by
  induction amounts with
  | nil => exact ⟨0, fun _ _ => .nil⟩
  | cons head _ later =>
    obtain ⟨first, here⟩ := head
    obtain ⟨second, there⟩ := later
    exact ⟨max first second, fun depth enough =>
      .cons (here depth (by omega)) (there depth (by omega))⟩

/-- An equation holds in one way. -/
theorem amounts_unify (left right : Term A) :
    Amounts program (.unify left right) {{valuation | valuation.Equates left right}} := by
  refine ⟨0, fun depth _ start acyclic => ⟨_, ?_, State.splits_unify acyclic⟩⟩
  rw [listWith?]
  cases Relational.unify left right start.substitution <;> rfl

/-- A conjunction holds in one way of each of its goals. -/
theorem amounts_conjunction (each : List.Forall₂ (Amounts program) goals all) :
    Amounts program (.conjunction goals) (.meetAll all) := by
  obtain ⟨enough, counted⟩ := exists_depth each
  refine ⟨enough, fun depth le start acyclic => ?_⟩
  rw [listWith?, ← Ways.univ_meet (.meetAll all)]
  exact exists_listAll? (counted depth le) (State.splits_univ acyclic)

/-- A disjunction holds in the ways of all of its goals. -/
theorem amounts_disjunction (each : List.Forall₂ (Amounts program) goals all) :
    Amounts program (.disjunction goals) all.sum := by
  obtain ⟨enough, counted⟩ := exists_depth each
  refine ⟨enough, fun depth le start acyclic => ?_⟩
  rw [listWith?]
  exact exists_listAny? (counted depth le) acyclic

/-- A delayed goal holds in the ways of the goal that its name stands for. -/
theorem amounts_delay {name : δ} {ways : Ways A}
    (inner : Amounts program (program name).goal ways) : Amounts program (.delay name) ways := by
  obtain ⟨enough, counted⟩ := inner
  refine ⟨enough + 1, fun depth le start acyclic => ?_⟩
  obtain ⟨depth, rfl⟩ : ∃ rest, depth = rest + 1 := ⟨depth - 1, by omega⟩
  rw [listWith?, listDelayed?]
  exact counted depth (by omega) start acyclic

/-- A goal and a reordered one hold in the same ways. Of lists of goals it is shown before they are
put into another order. -/
theorem Reorders.exists_ways {goal : Goal A δ} {other : Goal A δ'}
    (reorders : goal.Reorders program program' other) :
    ∃ ways, goal.Amounts program ways ∧ other.Amounts program' ways := by
  refine @Reorders.rec A δ δ' program program'
    (fun goal other _ => ∃ ways, goal.Amounts program ways ∧ other.Amounts program' ways)
    (fun goals others _ => ∃ all, List.Forall₂ (Amounts program) goals all ∧
      List.Forall₂ (Amounts program') others all) ?unify ?conjunction ?disjunction ?delay ?nil ?cons
    goal other reorders
  case unify => exact fun left right => ⟨_, amounts_unify left right, amounts_unify left right⟩
  case conjunction =>
    rintro goals same others - order ⟨all, ones, sames⟩
    obtain ⟨turned, amounts, again⟩ := List.perm_comp_forall₂ order.symm sames
    refine ⟨_, amounts_conjunction ones, ?_⟩
    rw [← Ways.meetAll_eq_of_perm again]
    exact amounts_conjunction amounts
  case disjunction =>
    rintro goals same others - order ⟨all, ones, sames⟩
    obtain ⟨turned, amounts, again⟩ := List.perm_comp_forall₂ order.symm sames
    refine ⟨_, amounts_disjunction ones, ?_⟩
    rw [← again.sum_eq]
    exact amounts_disjunction amounts
  case delay =>
    rintro name name' - ⟨ways, one, other⟩
    exact ⟨ways, amounts_delay one, amounts_delay other⟩
  case nil => exact ⟨[], .nil, .nil⟩
  case cons =>
    rintro goal other goals others - - ⟨ways, one, two⟩ ⟨all, ones, twos⟩
    exact ⟨ways :: all, .cons one ones, .cons two twos⟩

/-- The search for a goal that holds in some ways comes to its end, and its answers are those of the
ways. -/
theorem Amounts.finishes {goal : Goal A δ} {ways : Ways A} (amounts : goal.Amounts program ways)
    (acyclic : start.substitution.Acyclic) :
    ∃ answers, Search.Finishes program (goal.calculate start) answers ∧
      start.Splits ways answers := by
  obtain ⟨enough, counted⟩ := amounts
  obtain ⟨states, listed, splits⟩ := counted enough (Nat.le_refl enough) start acyclic
  obtain ⟨answers, finishes, same⟩ := (lists_of_list? goal listed).finishes
  refine ⟨answers, finishes, fun state member => splits.acyclic state (same.mem_iff.mp member),
    fun state member => splits.freshCount state (same.mem_iff.mp member), ?_⟩
  rw [← splits.solutions]
  exact Multiset.coe_eq_coe.mpr (same.map _)

/-- The order of goals affects the order of answers and nothing else. From an acyclic state, the
search for a goal and the search for a goal that differs from it by the order of the goals in its
conjunctions and disjunctions both come to an end, after equally many answers. The answers can be
paired so that the two states of each pair have handed out as many variables and have bindings with
the same solutions. -/
theorem reordering_pairs_answers {goal : Goal A δ} {other : Goal A δ'}
    (reorders : goal.Reorders program program' other) (acyclic : start.substitution.Acyclic) :
    ∃ answers others, Search.Finishes program (goal.calculate start) answers ∧
      Search.Finishes program' (other.calculate start) others ∧
        answers.length = others.length ∧
          ∃ order : List (State A), order.Perm others ∧
            List.Forall₂ State.Agrees answers order := by
  obtain ⟨ways, one, two⟩ := reorders.exists_ways
  obtain ⟨answers, finishes, splits⟩ := one.finishes acyclic
  obtain ⟨others, finishes', splits'⟩ := two.finishes acyclic
  have same : (answers.map State.solutions).Perm (others.map State.solutions) :=
    Multiset.coe_eq_coe.mp (splits.solutions.trans splits'.solutions.symm)
  have listed : List.Forall₂ (fun way state => State.solutions state = way)
      (others.map State.solutions) others := by
    rw [List.forall₂_map_left_iff]
    exact List.forall₂_same.mpr fun _ _ => rfl
  obtain ⟨order, paired, perm⟩ := List.perm_comp_forall₂ same listed
  rw [List.forall₂_map_left_iff] at paired
  have lengths : answers.length = others.length := by
    rw [paired.length_eq, perm.length_eq]
  refine ⟨answers, others, finishes, finishes', lengths, order, perm, ?_⟩
  rw [List.forall₂_iff_zip] at paired ⊢
  refine ⟨paired.1, fun {one two} member => ?_⟩
  obtain ⟨here, there⟩ := List.of_mem_zip member
  have counts := (splits.freshCount one here).trans
    (splits'.freshCount two (perm.mem_iff.mp there)).symm
  exact ⟨counts, fun valuation => (Set.ext_iff.mp (paired.2 member) valuation).symm⟩

/-- An equation between two variables before or after a delayed choice of a value for one of them,
with the branches of the choice exchanged: the two searches bind the variables differently and have
the same answers. -/
theorem equation_around_choice :
    let choice : Goal Int64 Unit :=
      .disjunction [.unify (.var 0) (.atom 1), .unify (.var 1) (.atom 2)]
    let exchanged : Goal Int64 Unit :=
      .disjunction [.unify (.var 1) (.atom 2), .unify (.var 0) (.atom 1)]
    let program : Program Int64 Unit := fun _ => ⟨[], choice⟩
    let program' : Program Int64 Unit := fun _ => ⟨[], exchanged⟩
    let goal : Goal Int64 Unit := .conjunction [.unify (.var 0) (.var 1), .delay ()]
    let other : Goal Int64 Unit := .conjunction [.delay (), .unify (.var 0) (.var 1)]
    let start : State Int64 := ⟨IntMap.empty, 2⟩
    goal.Reorders program program' other ∧ start.substitution.Acyclic ∧
      ∃ answers others, Search.Finishes program (goal.calculate start) answers ∧
        Search.Finishes program' (other.calculate start) others ∧
          answers.length = others.length ∧
            ∃ order : List (State Int64), order.Perm others ∧
              List.Forall₂ State.Agrees answers order := by
  intro choice exchanged program program' goal other start
  have inside : choice.Reorders program program' exchanged :=
    .disjunction (.cons (.unify _ _) (.cons (.unify _ _) .nil)) (.swap _ _ [])
  have reorders : goal.Reorders program program' other :=
    .conjunction (.cons (.unify _ _) (.cons (.delay inside) .nil)) (.swap _ _ [])
  exact ⟨reorders, Substitution.acyclic_empty,
    reordering_pairs_answers reorders Substitution.acyclic_empty⟩

/-- A floating point number that is none differs from itself. A variable that stands for it does not
unify with itself, so the search that equates the variable with itself first has an answer, and the
search that equates it with the number first has none. -/
theorem number_unlike_itself_in_either_order :
    let number : Term Float := .atom (0.0 / 0.0)
    let program : Program Float Empty := Empty.elim
    let goal : Goal Float Empty := .conjunction [.unify (.var 0) (.var 0), .unify (.var 0) number]
    let other : Goal Float Empty := .conjunction [.unify (.var 0) number, .unify (.var 0) (.var 0)]
    let start : State Float := ⟨IntMap.empty, 1⟩
    goal.Reorders program program other ∧ start.substitution.Acyclic ∧
      ¬ ∃ answers others, Search.Finishes program (goal.calculate start) answers ∧
        Search.Finishes program (other.calculate start) others ∧
          answers.length = others.length := by
  intro number program goal other start
  let bound : Substitution Float := IntMap.insert IntMap.empty 0 number
  have reorders : goal.Reorders program program other :=
    .conjunction (.cons (.unify _ _) (.cons (.unify _ _) .nil)) (.swap _ _ _)
  have kept : Relational.unify (.var 0) (.var 0) start.substitution = .ok start.substitution :=
    unify_var_self
  have equated : Relational.unify (.var 0) number start.substitution = .ok bound :=
    unify_var_atom _
  have clashed : Relational.unify (.var 0) (.var 0) bound = .error .atoms :=
    unify_var_self_of_unlike (by decide)
  have one : goal.list? program 0 start = some [⟨bound, 1⟩] := by
    simp [goal, list?, listWith?, listAll?, forEach?, kept, equated, start]
  have none : other.list? program 0 start = some [] := by
    simp [other, list?, listWith?, listAll?, forEach?, clashed, equated, start]
  refine ⟨reorders, Substitution.acyclic_empty, ?_⟩
  rintro ⟨answers, others, finishes, finishes', lengths⟩
  obtain ⟨found, ends, same⟩ := (lists_of_list? goal one).finishes
  obtain ⟨found', ends', same'⟩ := (lists_of_list? other none).finishes
  rw [finishes.unique ends, finishes'.unique ends', same.length_eq, same'.length_eq] at lengths
  cases lengths

end Goal

end Relational
