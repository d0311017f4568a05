import Relational.Proofs.Goal.Growth
import Relational.Proofs.Stream.Safety
import Relational.Query

/-!
# Searches never trip over their cells

The searches of goals are tame: nothing is forced while a goal is calculated, every delayed goal is
put off, and all states are free of cycles. So whatever consumers do with the streams of searches,
each force ends and none comes to a cell that is under way. Only the indices of new variables may
run out.
-/
namespace Relational

/-!
## Sessions of searches

The streams of a session of searches are the answers of goals, from any states without cycles, and
what comes of them by copying, forcing and pulling. Consumers may do that in any order.
-/

section Sessions

variable {A δ : Type} [BEq A] [Decidable (ReflBEq A)]

/-- What a consumer of searches may do. -/
inductive Action.Searches : Action (State A) Event (δ × State A) → Prop where
  /-- The answers of a goal from a state are searched. -/
  | calculate (goal : Goal A δ) {state : State A} (acyclic : state.substitution.Acyclic) :
    Searches (.make (goal.calculate state))
  /-- A goal is searched from the initial state. -/
  | solve (goal : Goal A δ) : Searches (.make goal.solve)
  /-- A query is run. -/
  | run (query : Query) (build : List (Term A) → Built A δ) : Searches (.make (query.run build))
  /-- A stream is copied. -/
  | copy (stream : Nat) : Searches (.make (.ref stream))
  /-- The cell behind a stream is forced: that of its suspension, or that of its tail. -/
  | force (stream : Nat) : Searches (.force stream)
  /-- A stream is dropped. -/
  | drop (stream : Nat) : Searches (.drop stream)
  /-- An iterator is made. -/
  | iterate (stream : Nat) : Searches (.iterate stream)
  /-- An iterator is pulled. -/
  | pull (iterator : Nat) : Searches (.pull iterator)

end Sessions

/-! ## Goals are mild -/

variable {A δ : Type}

/-- All states of a search are free of cycles, and the search is given up only where the indices of
new variables run out. -/
abbrev Search.Tame (search : Search A δ) : Prop :=
  Plan.Tame (fun state : State A => state.substitution.Acyclic)
    (fun routine : δ × State A => routine.2.substitution.Acyclic) indexOverflow search

variable [BEq A] [Decidable (ReflBEq A)]

namespace Goal

/-- Calculating the goal from a state without cycles is tame. -/
def Mild (goal : Goal A δ) : Prop :=
  ∀ {state : State A}, state.substitution.Acyclic → Search.Tame (goal.calculate state)

/-- Unification keeps states free of cycles. -/
theorem mild_unify (left right : Term A) : Mild (.unify left right : Goal A δ) := by
  intro state acyclic
  show Search.Tame (equate left right state)
  unfold equate
  cases unified : Relational.unify left right state.substitution with
  | ok substitution => exact .unit (acyclic.unify unified)
  | error reason => exact .report .empty

/-- What mild goals leave of tame answers is tame. -/
theorem tame_calculateAll {goals : List (Goal A δ)} (each : ∀ goal ∈ goals, goal.Mild)
    {answers : Search A δ} (tame : Search.Tame answers) :
    Search.Tame (calculateAll goals answers) := by
  induction goals generalizing answers with
  | nil => exact tame
  | cons goal goals further =>
    obtain ⟨first, rest⟩ := List.forall_mem_cons.mp each
    exact further rest (.mapcat tame fun _ acyclic => first acyclic)

/-- The answers of mild goals together are tame. -/
theorem tame_calculateAny {goals : List (Goal A δ)} (each : ∀ goal ∈ goals, goal.Mild)
    {state : State A} (acyclic : state.substitution.Acyclic) :
    Search.Tame (calculateAny goals state) := by
  induction goals with
  | nil => exact .empty
  | cons goal goals further =>
    obtain ⟨first, rest⟩ := List.forall_mem_cons.mp each
    exact .share (further rest) (.merge (.computed (first acyclic)) (.ref 0))

/-- All goals are mild. -/
theorem mild (goal : Goal A δ) : goal.Mild := by
  induction goal using Goal.induct with
  | unify left right => exact mild_unify left right
  | conjunction goals each => exact fun acyclic => tame_calculateAll each (.unit acyclic)
  | disjunction goals each => exact fun acyclic => tame_calculateAny each acyclic
  | delay name => exact fun acyclic => .delay acyclic
  | fresh count notes build each =>
    intro state acyclic
    cases allocated : state.allocate? count with
    | none =>
      rw [calculate, allocated]
      exact .fail
    | some found =>
      obtain ⟨vars, next⟩ := found
      rw [calculate_fresh allocated]
      have kept := State.substitution_of_allocate? allocated
      exact .report (.reportAll _ (each vars (kept ▸ acyclic)))

end Goal

/-- Delayed goals are tame when they are called from states without cycles. -/
theorem Program.tame_routines (program : Program A δ) (routine : δ × State A)
    (acyclic : routine.2.substitution.Acyclic) : Search.Tame (program.routines routine) :=
  .reportAll _ ((program routine.1).goal.mild acyclic)

/-- Whatever a consumer of searches does is tame. -/
theorem Action.Searches.tame {action : Action (State A) Event (δ × State A)}
    (searches : action.Searches) :
    action.Tame (fun state => state.substitution.Acyclic)
      (fun routine => routine.2.substitution.Acyclic) indexOverflow := by
  cases searches with
  | calculate goal acyclic => exact goal.mild acyclic
  | solve goal => exact .report (goal.mild Substitution.acyclic_empty)
  | run query build =>
    exact .report (.report (.reportAll _ ((build query.vars).goal.mild Substitution.acyclic_empty)))
  | copy stream => exact .ref stream
  | force stream => exact trivial
  | drop stream => exact trivial
  | iterate stream => exact trivial
  | pull iterator => exact trivial

namespace Goal

/-- Whatever consumers of searches have done, as long as nothing was given up, nothing is under way,
forcing any cell ends and starts only that cell and older ones, calculating, solving and running a
goal ends and starts nothing, and no action is given up but where the indices of new variables run
out; a pull may be unfinished under every bound. On every path of a search from a state without
cycles unification ends. -/
theorem searches_force_without_fault (program : Program A δ) {bound : Nat}
    {actions : List (Action (State A) Event (δ × State A))}
    (searches : ∀ action ∈ actions, action.Searches)
    (calm : Session.Calm (Session.empty.performAll program.routines bound actions).1) :
    (Session.empty.performAll program.routines bound actions).2.Sound program.routines
        Action.Searches indexOverflow ∧
      ∀ (goal : Goal A δ) {state : State A}, state.substitution.Acyclic →
        ∀ {point : Point A δ}, Point.Path program (.start goal state) point →
          ∀ left right, unify? left right point.state.substitution =
            some (Relational.unify left right point.state.substitution) := by
  have tidy := Session.tidy_empty.performAll program.tame_routines
    (fun action member => (searches action member).tame) calm
  have sound := tidy.sound program.tame_routines
  refine ⟨⟨sound.idle, sound.force, fun plan may => sound.make plan may.tame,
    fun action may => sound.respond action may.tame⟩, ?_⟩
  intro goal state acyclic point path left right
  exact (unify?_answers left right (path.grown acyclic).acyclic).1

/-- Two consumers share the answers of an endless goal, and a third one holds a conjunction of that
goal with another. Forcing the cell that the third one has come to ends, though its work calls a
delayed goal and merges what comes of it with cells that are waiting. -/
theorem force_beside_endless_answers :
    let program : Program Int64 Bool := fun name =>
      bif name then ⟨[], .unify (.var 0) (.atom 5)⟩
      else ⟨["again"], .disjunction [.succeed, .delay false]⟩
    let goal : Goal Int64 Bool := .conjunction
      [.delay false, .fresh 1 (fun _ => ["new"]) fun _ => .delay true]
    let actions := [.make (goal.calculate ⟨IntMap.empty, 1⟩), .make (solve (.delay false)),
      .make (.ref 1), .iterate 1, .iterate 2, .pull 0, .force 0, .pull 1, .force 2, .force 3,
      .drop 1, .pull 0]
    let session := (Session.empty.performAll program.routines 9 actions).2
    session.heap.cells.size = 31 ∧ 23 ∉ session.heap.starts ∧
      Run.Ends indexOverflow (fun bound => (handlers program.routines bound).force 23) session.heap
        24 ∧
      (∀ bound, (session.perform program.routines bound (.pull 1)).1 ≠
        .stopped (.fault .reentrant)) ∧
      unify? (.var 0) (.atom 5) (IntMap.empty : Substitution Int64) =
        some (Relational.unify (.var 0) (.atom 5) IntMap.empty) := by
  intro program goal actions session
  have size : session.heap.cells.size = 31 := by decide +kernel
  have unstarted : 23 ∉ session.heap.starts := by decide +kernel
  have calm : Session.Calm (Session.empty.performAll program.routines 9 actions).1 := by
    decide +kernel
  have searches : ∀ action ∈ actions, action.Searches := by
    simp only [actions, List.forall_mem_cons]
    exact ⟨.calculate goal Substitution.acyclic_empty, .solve _, .copy 1, .iterate 1, .iterate 2,
      .pull 0, .force 0, .pull 1, .force 2, .force 3, .drop 1, .pull 0, List.forall_mem_nil _⟩
  obtain ⟨sound, ends⟩ := searches_force_without_fault program searches calm
  have called : Point.Path program (.start (.delay true) ⟨IntMap.empty, 1⟩)
      ⟨[.unify (.var 0) (.atom 5)], ⟨IntMap.empty, 1⟩, [], _⟩ := .step .here .delay
  refine ⟨size, unstarted, sound.force 23, fun bound faulted => ?_,
    ends (.delay true) Substitution.acyclic_empty called _ _⟩
  rcases sound.respond _ (.pull 1) bound _ faulted with impossible | impossible
  · cases impossible
  · cases impossible

end Goal

end Relational
