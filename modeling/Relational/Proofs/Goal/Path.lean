import Relational.Proofs.Goal.Fairness
import Relational.Proofs.Stream.Provenance

/-!
# Answers end paths

Every state that a goal yields is the end of a path, whatever else the search comes to: also where
it never comes to other answers, where the indices of new variables run out on other paths or
where bindings go round a cycle. The induction is on how many steps of the stream are seen before
the state, since each delayed goal on the path takes one, and for each number on the goal.
-/
namespace Relational

/-!
## Paths of a search

What a search does on the way to one answer, goal by goal: an equation extends the bindings, a
conjunction comes to all of its goals in order, a disjunction to one of them, and a goal for new
variables and a delayed goal are built when the search comes to them. A path need not come to an
answer, and it ends where two terms do not unify or where there is no room for new variables. On
the way it is kept in mind which variables were handed out and which goals were built.
-/

variable {A δ : Type}

/-- Variables that a builder was given. -/
structure Handout (A : Type) where
  /-- How many it asked for. -/
  count : UInt64
  /-- The variables. -/
  vars : List (Term A)

/-- How many variables builders were given together. -/
def Handout.total : List (Handout A) → Nat
  | [] => 0
  | handout :: handouts => handout.count.toNat + total handouts

/-- How far a search has come on one path. -/
structure Point (A δ : Type) where
  /-- The goals that are still to hold, in order. -/
  pending : List (Goal A δ)
  /-- The state from which they are to hold. -/
  state : State A
  /-- The variables handed out on the way, first ones first. -/
  handouts : List (Handout A)
  /-- The goals built on the way, first ones first, after the goal that is searched. -/
  built : List (Goal A δ)

/-- The point where the search for a goal begins. -/
def Point.start (goal : Goal A δ) (state : State A) : Point A δ := ⟨[goal], state, [], [goal]⟩

/-- How many variables were handed out on the way. -/
def Point.handedOut (point : Point A δ) : Nat := Handout.total point.handouts

/-- A search goes on from one point to the next. -/
inductive Point.Step [BEq A] [Decidable (ReflBEq A)] (program : Program A δ) :
    Point A δ → Point A δ → Prop where
  /-- Two terms unify. -/
  | unify {left right : Term A} {goals built : List (Goal A δ)} {state : State A}
    {handouts : List (Handout A)} {substitution : Substitution A}
    (unified : Relational.unify left right state.substitution = .ok substitution) :
    Step program ⟨.unify left right :: goals, state, handouts, built⟩
      ⟨goals, { state with substitution }, handouts, built⟩
  /-- The goals of a conjunction are come to. -/
  | conjunction {each goals built : List (Goal A δ)} {state : State A}
    {handouts : List (Handout A)} :
    Step program ⟨.conjunction each :: goals, state, handouts, built⟩
      ⟨each ++ goals, state, handouts, built⟩
  /-- One goal of a disjunction is come to. -/
  | disjunction {branches goals built : List (Goal A δ)} {goal : Goal A δ} {state : State A}
    {handouts : List (Handout A)} (member : goal ∈ branches) :
    Step program ⟨.disjunction branches :: goals, state, handouts, built⟩
      ⟨goal :: goals, state, handouts, built⟩
  /-- A goal is built for new variables. -/
  | fresh {count : UInt64} {notes : List (Term A) → List String}
    {build : List (Term A) → Goal A δ} {goals built : List (Goal A δ)} {state next : State A}
    {handouts : List (Handout A)} {vars : List (Term A)}
    (allocated : state.allocate? count = some (vars, next)) :
    Step program ⟨.fresh count notes build :: goals, state, handouts, built⟩
      ⟨build vars :: goals, next, handouts ++ [⟨count, vars⟩], built ++ [build vars]⟩
  /-- A delayed goal is built. -/
  | delay {name : δ} {goals built : List (Goal A δ)} {state : State A}
    {handouts : List (Handout A)} :
    Step program ⟨.delay name :: goals, state, handouts, built⟩
      ⟨(program name).goal :: goals, state, handouts, built ++ [(program name).goal]⟩

/-- A search goes on from one point to another, step by step. -/
inductive Point.Path [BEq A] [Decidable (ReflBEq A)] (program : Program A δ) (start : Point A δ) :
    Point A δ → Prop where
  /-- It has not gone on yet. -/
  | here : Path program start start
  /-- It goes one step further. -/
  | step {middle stop : Point A δ} (path : Path program start middle)
    (step : middle.Step program stop) : Path program start stop

/-- A state that searches come to from the initial state, one after another, and by handing out
variables in between. -/
inductive State.Reachable [BEq A] [Decidable (ReflBEq A)] : State A → Prop where
  /-- The initial state. -/
  | initial : Reachable .initial
  /-- Variables are handed out. -/
  | allocate {state next : State A} {count : UInt64} {vars : List (Term A)}
    (before : Reachable state) (allocated : state.allocate? count = some (vars, next)) :
    Reachable next
  /-- A goal yields a state. -/
  | answer {δ : Type} {program : Program A δ} {goal : Goal A δ} {state answer : State A}
    (before : Reachable state) (yields : goal.Yields program state answer) : Reachable answer

/-! ## Paths to answers -/

variable [BEq A] [Decidable (ReflBEq A)] {program : Program A δ}

namespace Point

variable {first second third : Point A δ}

/-- Paths go on where others end. -/
theorem Path.trans (before : first.Path program second) (after : second.Path program third) :
    first.Path program third := by
  induction after with
  | here => exact before
  | step _ step longer => exact longer.step step

/-- A path begins with a step. -/
theorem Path.head (step : first.Step program second) (path : second.Path program third) :
    first.Path program third :=
  (Path.here.step step).trans path

/-- What the first point has, and steps keep, the last point has. -/
theorem Path.induct {motive : Point A δ → Prop} (path : first.Path program second)
    (begins : motive first)
    (keeps : ∀ {before after : Point A δ}, before.Step program after →
      motive before → motive after) :
    motive second := by
  induction path with
  | here => exact begins
  | step _ step held => exact keeps step held

end Point

namespace Search

/-- Some stream of a search emits a state after at most so many steps. -/
def Emitted (program : Program A δ) (limit : Nat) (search : Search A δ) (answer : State A) : Prop :=
  ∃ scope stream, search.read (reading program) scope = some stream ∧
    stream.EmitsWithin (reading program) limit answer

variable {limit : Nat} {search : Search A δ} {state answer : State A}

/-- What is emitted depends on what is read. -/
theorem Emitted.congr {other : Search A δ} (emitted : Emitted program limit other answer)
    (same : ∀ scope, other.read (reading program) scope = search.read (reading program) scope) :
    Emitted program limit search answer := by
  obtain ⟨scope, stream, read, found⟩ := emitted
  exact ⟨scope, stream, (same scope).symm.trans read, found⟩

/-- A search without states emits none. -/
theorem not_emitted_empty : ¬ Emitted program limit (.empty : Search A δ) answer := by
  rintro ⟨scope, stream, read, found⟩
  cases read
  exact nomatch found

/-- A search for one state emits no other one. -/
theorem Emitted.of_unit (emitted : Emitted program limit (.unit state : Search A δ) answer) :
    answer = state := by
  obtain ⟨scope, stream, read, found⟩ := emitted
  cases read
  cases found with
  | head => rfl
  | tail forced later =>
    rw [(reading_fixed program).force] at forced
    cases forced
    exact nomatch later

/-- A flat map emits what the body makes of a state that the source emits. -/
theorem Emitted.of_mapcat {body : State A → Search A δ}
    (emitted : Emitted program limit (.mapcat search body) answer) :
    ∃ state, Emitted program limit search state ∧ Emitted program limit (body state) answer := by
  obtain ⟨scope, mapped, read, found⟩ := emitted
  obtain ⟨source, readSource, made⟩ := Option.bind_eq_some_iff.mp read
  obtain ⟨state, stream, origin, readStream, found⟩ :=
    Unshared.exists_of_mapcatWith (reading_fixed program) made found
  exact ⟨state, ⟨scope, source, readSource, origin⟩, scope, stream, readStream, found⟩

/-- A delayed routine emits what the routine emits, one step later. -/
theorem Emitted.of_suspend {routine : δ × State A}
    (emitted : Emitted program limit (.suspend (.call routine)) answer) :
    ∃ fewer, limit = fewer + 1 ∧ Emitted program fewer (program.routines routine) answer := by
  obtain ⟨scope, stream, read, found⟩ := emitted
  cases read
  cases found with
  | suspended forced later => exact ⟨_, rfl, [], _, (force_call scope).symm.trans forced, later⟩

end Search

namespace Goal

open Search (Emitted)

/-- A search comes from a state to another one through some goals, whatever went before and whatever
is to hold after. -/
def Leads (program : Program A δ) (goals : List (Goal A δ)) (start stop : State A) : Prop :=
  ∀ (rest built : List (Goal A δ)) (handouts : List (Handout A)), ∃ handouts' built',
    Point.Path program ⟨goals ++ rest, start, handouts, built⟩ ⟨rest, stop, handouts', built'⟩

variable {limit : Nat} {goal : Goal A δ} {goals : List (Goal A δ)}
  {start middle stop answer : State A}

/-- Without goals a search stays where it is. -/
theorem leads_nil : Leads program [] start start :=
  fun _ built handouts => ⟨handouts, built, .here⟩

/-- A search goes through goals one after another. -/
theorem Leads.cons (head : Leads program [goal] start middle)
    (tail : Leads program goals middle stop) : Leads program (goal :: goals) start stop := by
  intro rest built handouts
  obtain ⟨handouts', built', first⟩ := head (goals ++ rest) built handouts
  obtain ⟨handouts'', built'', second⟩ := tail rest built' handouts'
  exact ⟨handouts'', built'', first.trans second⟩

/-- A search goes on through goals where a step comes to them. -/
theorem Leads.of_step (leads : Leads program goals middle stop)
    (step : ∀ (rest built : List (Goal A δ)) (handouts : List (Handout A)), ∃ handouts' built',
      Point.Step program ⟨goal :: rest, start, handouts, built⟩
        ⟨goals ++ rest, middle, handouts', built'⟩) :
    Leads program [goal] start stop := by
  intro rest built handouts
  obtain ⟨handouts', built', first⟩ := step rest built handouts
  obtain ⟨handouts'', built'', second⟩ := leads rest built' handouts'
  exact ⟨handouts'', built'', .head first second⟩

/-- What a conjunction emits is come to through its goals, if that holds of what each of them
emits. -/
theorem exists_leads_of_calculateAll {search : Search A δ}
    (each : ∀ goal ∈ goals, ∀ {start answer : State A},
      Emitted program limit (goal.calculate start) answer → Leads program [goal] start answer)
    (emitted : Emitted program limit (calculateAll goals search) answer) :
    ∃ state, Emitted program limit search state ∧ Leads program goals state answer := by
  induction goals generalizing search with
  | nil => exact ⟨answer, emitted, leads_nil⟩
  | cons goal goals later =>
    obtain ⟨middle, mapped, leads⟩ :=
      later (fun other member => each other (List.mem_cons_of_mem _ member)) emitted
    obtain ⟨state, found, emitted⟩ := mapped.of_mapcat
    exact ⟨state, found, (each goal (List.mem_cons_self ..) emitted).cons leads⟩

/-- What a disjunction emits is emitted by one of its goals. -/
theorem exists_of_calculateAny (emitted : Emitted program limit (calculateAny goals start) answer) :
    ∃ goal ∈ goals, Emitted program limit (goal.calculate start) answer := by
  induction goals with
  | nil => exact absurd emitted Search.not_emitted_empty
  | cons goal goals later =>
    obtain ⟨scope, merged, read, found⟩ := emitted
    obtain ⟨shared, first, readShared, readFirst, made⟩ := exists_of_read_calculateAny read
    rcases Unshared.exists_of_mergeWith (Search.reading_fixed program) made found with
      found | ⟨second, forced, found⟩
    · exact ⟨goal, List.mem_cons_self .., shared :: scope, first, readFirst, found⟩
    · rw [(Search.reading_fixed program).force] at forced
      cases forced
      obtain ⟨other, member, emitted⟩ := later ⟨scope, shared, readShared, found⟩
      exact ⟨other, List.mem_cons_of_mem _ member, emitted⟩

/-- A search comes to every state that it emits. -/
theorem leads_of_emitted (goal : Goal A δ)
    (emitted : Emitted program limit (goal.calculate start) answer) :
    Leads program [goal] start answer := by
  induction limit using Nat.strong_induction_on generalizing goal start answer with
  | _ limit earlier =>
    induction goal using Goal.induct generalizing start answer with
    | unify left right =>
      have equated : Emitted program limit (equate left right start) answer := emitted
      unfold equate at equated
      cases unified : Relational.unify left right start.substitution with
      | ok substitution =>
        rw [unified] at equated
        rw [equated.of_unit]
        exact leads_nil.of_step fun _ built handouts => ⟨handouts, built, .unify unified⟩
      | error reason =>
        rw [unified] at equated
        exact absurd equated Search.not_emitted_empty
    | conjunction goals each =>
      obtain ⟨state, begun, leads⟩ := exists_leads_of_calculateAll each emitted
      rw [begun.of_unit] at leads
      exact leads.of_step fun _ built handouts => ⟨handouts, built, .conjunction⟩
    | disjunction goals each =>
      obtain ⟨goal, member, emitted⟩ := exists_of_calculateAny emitted
      exact (each goal member emitted).of_step fun _ built handouts =>
        ⟨handouts, built, .disjunction member⟩
    | fresh count notes build each =>
      cases allocated : start.allocate? count with
      | none =>
        obtain ⟨scope, stream, read, _⟩ := emitted
        rw [calculate, allocated] at read
        cases read
      | some entry =>
        have leads := each entry.1 (emitted.congr (read_fresh allocated notes))
        exact leads.of_step fun _ built handouts => ⟨_, _, .fresh allocated⟩
    | delay name =>
      obtain ⟨fewer, same, emitted⟩ := Emitted.of_suspend emitted
      have leads := earlier fewer (by omega) (program name).goal (emitted.congr read_routine)
      exact leads.of_step fun _ built handouts => ⟨handouts, _, .delay⟩

/-- Every state that a goal yields is the end of a path on which no goal is left. -/
theorem exists_path_of_yields (yields : goal.Yields program start answer) :
    ∃ stop, (Point.start goal start).Path program stop ∧ stop.pending = [] ∧
      stop.state = answer := by
  obtain ⟨stream, read, emitted⟩ := Search.mem_take_iff.mp yields
  obtain ⟨limit, emitted⟩ := emitted.exists_emitsWithin
  obtain ⟨handouts, built, path⟩ :=
    leads_of_emitted goal ⟨[], stream, read, emitted⟩ [] [goal] []
  exact ⟨_, path, rfl, rfl⟩

end Goal

end Relational
