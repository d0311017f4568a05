import Relational.Proofs.Goal.Fairness
import Relational.Proofs.Stream.Exhaustion

/-!
# Searches and enumerations

Where the answers of a goal can be enumerated, the search for them comes to its end, and it finds
the answers of the enumeration: in another order, since branches take turns, but each of them
as often as it is enumerated. The stream of a goal is followed to its end by induction on the
depth to which delayed goals are unfolded and for each depth on the goal.
-/
namespace Relational

/-!
## Enumerations

The list of all answers of a goal, found without laziness and without taking turns: a
disjunction puts the lists of its goals one after another, and a conjunction goes on from
every answer so far. There is a list where every way of unfolding delayed goals ends, at a
depth that a bound has to exceed, and where indices do not run out. A search that comes to its
end has a list of answers too, those that pulling from it comes to.
-/

variable {A δ : Type}

/-- The answers of one goal from each of some states, one list after another. -/
def forEach? (answers : State A → Option (List (State A))) :
    List (State A) → Option (List (State A))
  | [] => some []
  | state :: states => do
    let first ← answers state
    let rest ← forEach? answers states
    some (first ++ rest)

namespace Goal

mutual

/-- All answers of a goal, where `unfold` lists those of delayed goals. -/
def listWith? [BEq A] [Decidable (ReflBEq A)] (unfold : δ → State A → Option (List (State A))) :
    Goal A δ → State A → Option (List (State A))
  | unify left right, state =>
    match Relational.unify left right state.substitution with
    | .ok substitution => some [{ state with substitution }]
    | .error _ => some []
  | conjunction goals, state => listAll? unfold goals [state]
  | disjunction goals, state => listAny? unfold goals state
  | fresh count _ build, state => do
    let (vars, next) ← state.allocate? count
    listWith? unfold (build vars) next
  | delay name, state => unfold name state

/-- All answers of a conjunction, going on from the answers so far. -/
def listAll? [BEq A] [Decidable (ReflBEq A)] (unfold : δ → State A → Option (List (State A))) :
    List (Goal A δ) → List (State A) → Option (List (State A))
  | [], states => some states
  | goal :: goals, states => do
    let next ← forEach? (fun state => listWith? unfold goal state) states
    listAll? unfold goals next

/-- All answers of a disjunction. -/
def listAny? [BEq A] [Decidable (ReflBEq A)] (unfold : δ → State A → Option (List (State A))) :
    List (Goal A δ) → State A → Option (List (State A))
  | [], _ => some []
  | goal :: goals, state => do
    let first ← listWith? unfold goal state
    let rest ← listAny? unfold goals state
    some (first ++ rest)

end

/-- All answers of the goal that a name stands for, unfolding names to a depth. -/
def listDelayed? [BEq A] [Decidable (ReflBEq A)] (program : Program A δ) :
    Nat → δ → State A → Option (List (State A))
  | 0, _, _ => none
  | depth + 1, name, state => (program name).goal.listWith? (listDelayed? program depth) state

/-- All answers of a goal, unfolding delayed goals to a depth. -/
def list? [BEq A] [Decidable (ReflBEq A)] (program : Program A δ) (depth : Nat) (goal : Goal A δ)
    (state : State A) : Option (List (State A)) :=
  goal.listWith? (listDelayed? program depth) state

end Goal

/-- Pulling from a search comes to these answers, one at each pull, and to the end at every pull
after them, with every bound that is large enough. -/
def Search.Finishes [BEq A] [Decidable (ReflBEq A)] (program : Program A δ) (search : Search A δ)
    (answers : List (State A)) : Prop :=
  ∃ enough, ∀ bound, enough ≤ bound → ∃ made heap,
    search.eval (handlers (Program.routines program) bound) [] .empty = .ok made heap ∧
      ∀ count, Stream.Iterator.pulls (handlers (Program.routines program) bound) bound count
          ⟨made⟩ heap =
        (answers.map fun answer => .ok (some answer)).take count ++
          List.replicate (count - answers.length) (.ok none)

/-! ## Searches that list -/

/-- There are answers from each of some states where there are from every one of them. -/
theorem forEach?_eq_some_iff {answers : State A → Option (List (State A))}
    {states listed : List (State A)} :
    forEach? answers states = some listed ↔
      (∀ state ∈ states, answers state = some ((answers state).getD [])) ∧
        listed = states.flatMap fun state => (answers state).getD [] := by
  induction states generalizing listed with
  | nil => simp [forEach?, eq_comm]
  | cons state states rest =>
    simp only [forEach?, Option.bind_eq_bind, Option.bind_eq_some_iff, Option.some.injEq, rest,
      List.forall_mem_cons, List.flatMap_cons]
    constructor
    · rintro ⟨first, here, _, ⟨later, rfl⟩, rfl⟩
      rw [here]
      exact ⟨⟨rfl, later⟩, rfl⟩
    · rintro ⟨⟨here, later⟩, rfl⟩
      exact ⟨_, here, _, ⟨later, rfl⟩, rfl⟩

variable [BEq A] [Decidable (ReflBEq A)] {program : Program A δ}

namespace Search

/-- Every stream of a search comes to its end, and its states are these in some order. -/
def Lists (program : Program A δ) (search : Search A δ) (states : List (State A)) : Prop :=
  ∀ scope, ∃ stream, search.read (reading program) scope = some stream ∧
    stream.Lists (reading program) states

variable {search : Search A δ} {states : List (State A)}

/-- What a search lists depends on what is read. -/
theorem Lists.congr {other : Search A δ} (lists : Lists program search states)
    (same : ∀ scope, other.read (reading program) scope = search.read (reading program) scope) :
    Lists program other states := by
  intro scope
  rw [same]
  exact lists scope

/-- A search without states lists none. -/
theorem lists_empty : Lists program (.empty : Search A δ) [] :=
  fun _ => ⟨.empty, rfl, 0, [], .empty, .refl _⟩

/-- A search for one state lists it. -/
theorem lists_unit (state : State A) : Lists program (.unit state : Search A δ) [state] :=
  fun _ => ⟨_, rfl, 1, [state],
    .cons ((reading_fixed program).force (.known .empty)) .empty, .refl _⟩

/-- A delayed routine lists what the routine lists. -/
theorem lists_suspend {routine : δ × State A}
    (lists : Lists program (program.routines routine) states) :
    Lists program (.suspend (.call routine)) states := by
  intro scope
  obtain ⟨stream, read, count, found, drains, same⟩ := lists []
  exact ⟨_, rfl, count + 1, found, .suspended ((force_call scope).trans read) drains, same⟩

/-- A flat map lists what the body lists from each state that the source lists. -/
theorem Lists.mapcat {body : State A → Search A δ} {made : State A → List (State A)}
    (lists : Lists program search states)
    (each : ∀ state ∈ states, Lists program (body state) (made state)) :
    Lists program (.mapcat search body) (states.flatMap made) := by
  intro scope
  obtain ⟨source, read, listed⟩ := lists scope
  obtain ⟨mapped, mapped_read, listed⟩ :=
    listed.mapcatWith (reading_fixed program) fun state member => each state member scope
  refine ⟨mapped, ?_, listed⟩
  show (search.read (reading program) scope).bind _ = _
  rw [read, Option.bind_some, ← mapped_read]

/-- A search that lists states comes to its end, and pulling from it comes to the states in some
order. One bound is enough for making the stream, for forcing its cells and for pulling. -/
theorem Lists.finishes (lists : Lists program search states) :
    ∃ answers, Finishes program search answers ∧ answers.Perm states := by
  obtain ⟨stream, read, count, answers, drains, same⟩ := lists []
  refine ⟨answers, ?_, same⟩
  obtain ⟨steps, observed, whole⟩ := drains.exists_observe
  obtain ⟨first, made, heap, ran⟩ := eval_of_read read
  obtain ⟨other, read', shows⟩ := exists_of_eval ran
  rw [read, Option.some.injEq] at read'
  obtain ⟨second, after, seen⟩ := shows.mpr (read' ▸ observed)
  refine ⟨max first (max second count), fun bound enough => ?_⟩
  have ran := ((Handlers.Steady.plan search []).refines
    (handlers_mono _ (show first ≤ bound by omega))).ok ran
  have seen := ((Handlers.Steady.observe (count + 1) made).refines
    (handlers_mono _ (show second ≤ bound by omega))).ok seen
  obtain ⟨less, le, drains⟩ := Stream.Drains.of_observe seen whole
  exact ⟨made, heap, ran, Stream.Iterator.pulls_of_drains drains (by omega)⟩

/-- Pulling from a search comes to the same answers every time. -/
theorem Finishes.unique {answers others : List (State A)} (one : Finishes program search answers)
    (other : Finishes program search others) : answers = others := by
  obtain ⟨first, one⟩ := one
  obtain ⟨second, other⟩ := other
  obtain ⟨made, heap, ran, pulled⟩ := one (max first second) (Nat.le_max_left ..)
  obtain ⟨made', heap', ran', pulled'⟩ := other (max first second) (Nat.le_max_right ..)
  cases ran.symm.trans ran'
  have same := (pulled (answers.length + others.length)).symm.trans
    (pulled' (answers.length + others.length))
  rw [List.take_of_length_le (by simp), List.take_of_length_le (by simp)] at same
  have values := congrArg (List.filterMap fun
    | .ok pulled => pulled
    | .error _ => none) same
  simpa [List.filterMap_append, List.filterMap_map, List.filterMap_replicate,
    Function.comp_def] using values

end Search

namespace Goal

open Search (Lists)

variable {goals : List (Goal A δ)} {listed : List (State A)}
  {unfold : δ → State A → Option (List (State A))}

/-- A disjunction lists what its goals list. -/
theorem lists_calculateAny {state : State A}
    (each : ∀ goal ∈ goals, ∀ {listed}, goal.listWith? unfold state = some listed →
      Lists program (goal.calculate state) listed)
    (found : listAny? unfold goals state = some listed) :
    Lists program (calculateAny goals state) listed := by
  induction goals generalizing listed with
  | nil =>
    cases found
    exact Search.lists_empty
  | cons goal goals later =>
    obtain ⟨first, here, behind⟩ := Option.bind_eq_some_iff.mp found
    obtain ⟨rest, there, same⟩ := Option.bind_eq_some_iff.mp behind
    cases same
    intro scope
    have listsLater := later (fun other member => each other (List.mem_cons_of_mem _ member)) there
    obtain ⟨shared, readShared, listsShared⟩ := listsLater scope
    obtain ⟨one, readOne, listsOne⟩ := each goal (List.mem_cons_self ..) here (shared :: scope)
    obtain ⟨merged, made, lists⟩ := listsOne.mergeWith (Search.reading_fixed program)
      ((Search.reading_fixed program).force (.known shared)) listsShared
    exact ⟨merged, (read_calculateAny_cons goal readShared readOne).trans made, lists⟩

/-- A conjunction lists what its goals list one after another. -/
theorem lists_calculateAll {search : Search A δ} {states : List (State A)}
    (each : ∀ goal ∈ goals, ∀ {state listed}, goal.listWith? unfold state = some listed →
      Lists program (goal.calculate state) listed)
    (lists : Lists program search states) (found : listAll? unfold goals states = some listed) :
    Lists program (calculateAll goals search) listed := by
  induction goals generalizing search states with
  | nil =>
    cases found
    exact lists
  | cons goal goals later =>
    obtain ⟨next, here, there⟩ := Option.bind_eq_some_iff.mp found
    obtain ⟨known, rfl⟩ := forEach?_eq_some_iff.mp here
    have mapped := lists.mapcat fun state member =>
      each goal (List.mem_cons_self ..) (known state member)
    exact later (fun other member => each other (List.mem_cons_of_mem _ member)) mapped there

/-- The search for a goal lists its answers, if the routines of delayed goals list theirs. -/
theorem lists_of_listWith?
    (delayed : ∀ {name state listed}, unfold name state = some listed →
      Lists program (program.routines (name, state)) listed)
    (goal : Goal A δ) {state : State A} (found : goal.listWith? unfold state = some listed) :
    Lists program (goal.calculate state) listed := by
  induction goal using Goal.induct generalizing state listed with
  | unify left right =>
    rw [listWith?] at found
    show Lists program (equate left right state) _
    unfold equate
    cases unified : Relational.unify left right state.substitution with
    | ok substitution =>
      simp only [unified, Option.some.injEq] at found
      exact found ▸ Search.lists_unit _
    | error reason =>
      simp only [unified, Option.some.injEq] at found
      exact found ▸ Search.lists_empty
  | conjunction goals each =>
    rw [listWith?] at found
    exact lists_calculateAll (fun goal member => each goal member) (Search.lists_unit state) found
  | disjunction goals each =>
    rw [listWith?] at found
    exact lists_calculateAny (fun goal member => each goal member) found
  | fresh count notes build each =>
    rw [listWith?] at found
    obtain ⟨entry, allocated, found⟩ := Option.bind_eq_some_iff.mp found
    exact (each entry.1 found).congr (read_fresh allocated notes)
  | delay name =>
    rw [listWith?] at found
    exact Search.lists_suspend (delayed found)

/-- The search for a goal lists its answers. -/
theorem lists_of_list? {depth : Nat} (goal : Goal A δ) {state : State A}
    (found : goal.list? program depth state = some listed) :
    Lists program (goal.calculate state) listed := by
  induction depth generalizing goal state listed with
  | zero =>
    refine lists_of_listWith? (fun {name state listed} impossible => ?_) goal found
    rw [listDelayed?] at impossible
    exact nomatch impossible
  | succ depth shallower =>
    refine lists_of_listWith? (fun {name state listed} found => ?_) goal found
    exact (shallower (program name).goal found).congr read_routine

/-- A search finds exactly what is enumerated. Where the answers of a goal from a state can be
enumerated to some depth, pulling from the search for the goal comes to the end after finitely many
pulls and stays there, and the states that were pulled are those of the enumeration in some order:
none is lost, none is added and each comes as often as it is enumerated. -/
theorem finishes_of_list? (program : Program A δ) (goal : Goal A δ) {depth : Nat}
    {start : State A} {listed : List (State A)}
    (found : goal.list? program depth start = some listed) :
    ∃ answers, Search.Finishes program (goal.calculate start) answers ∧ answers.Perm listed :=
  (lists_of_list? goal found).finishes

/-- Two values for a variable and then a delayed goal that holds in two ways: the search ends after
four answers, each of the two states twice. -/
theorem two_values_in_two_ways :
    let program : Program Int64 Unit := fun _ => ⟨[], .disjunction [.succeed, .succeed]⟩
    let goal : Goal Int64 Unit := .conjunction
      [.disjunction [.unify (.var 0) (.atom 1), .unify (.var 0) (.atom 2)], .delay ()]
    let one : State Int64 := ⟨IntMap.insert IntMap.empty 0 (.atom 1), 1⟩
    let two : State Int64 := ⟨IntMap.insert IntMap.empty 0 (.atom 2), 1⟩
    goal.list? program 1 ⟨IntMap.empty, 1⟩ = some [one, one, two, two] ∧
      ∃ answers, Search.Finishes program (goal.calculate ⟨IntMap.empty, 1⟩) answers ∧
        answers.Perm [one, one, two, two] := by
  intro program goal one two
  have first : Relational.unify (.var 0) (.atom 1) IntMap.empty = .ok one.substitution :=
    unify_eq_ok_of_step (by cbv)
  have second : Relational.unify (.var 0) (.atom 2) IntMap.empty = .ok two.substitution :=
    unify_eq_ok_of_step (by cbv)
  have listed : goal.list? program 1 ⟨IntMap.empty, 1⟩ = some [one, one, two, two] := by
    simp [goal, program, list?, listWith?, listAll?, listAny?, listDelayed?, forEach?, succeed,
      first, second, one, two]
  exact ⟨listed, finishes_of_list? program goal listed⟩

end Goal

end Relational
