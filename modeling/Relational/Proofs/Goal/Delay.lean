import Relational.Proofs.Goal.Derivation
import Relational.Proofs.Stream.LifeCycle
import Relational.Query
import Relational.Stream.Tame

/-!
# Delayed goals wait until they are forced

While a search is made the only cells that are forced are those that have just been made for streams
that are known. So it goes the same way with any handlers that know what is done, and those of a
program are such handlers. What may stand in front of the stream that is made, and where room for
new variables may be missing, is told by derivations that lead through no delayed goal.
-/
namespace Relational

/-!
## Delayed goals

A delayed goal is built when the suspension made for it is forced for the first time. Until then
nothing is known of it, so a search that is only made goes the same way whatever the names of
delayed goals stand for: also where every delayed goal is a fault, and where nothing may be forced
but what is done.
-/

section Delaying

variable {A α δ ε ρ : Type}

/-- Handlers for the cells that are done. Forcing any other cell is a fault, and so is calling a
routine. -/
def Handlers.onlyDone (fault : Fault) : Handlers α ε ρ where
  force cell heap :=
    match heap.status? cell with
    | some (.done stream) => .ok stream heap
    | _ => .error (.fault fault) heap
  call _ := Run.fault fault

/-- A program of which no delayed goal holds. Derivations by it lead through no delayed goal. -/
def Program.barren : Program A δ := fun _ => ⟨[], .fail⟩

variable [BEq A] [Decidable (ReflBEq A)]

/-- How a search is made that builds no delayed goal, does no work that was put off, and ends unless
the indices of new variables run out. -/
structure Search.Prompt (program : Program A δ) (overflows : Prop) (search : Search A δ) :
    Prop where
  /-- No routine is called, and only cells that are done are forced. -/
  idle : ∀ bound fault scope heap,
    search.eval (handlers program.routines (bound + 1)) scope heap =
      search.eval (.onlyDone fault) scope heap
  /-- No work is started. -/
  starts : ∀ bound scope heap,
    (Run.left (search.eval (handlers program.routines (bound + 1)) scope heap)).starts = heap.starts
  /-- A stream is made, or there is no room for new variables. -/
  ends : ∀ bound scope heap,
    (∃ made after,
      search.eval (handlers program.routines (bound + 1)) scope heap = .ok made after) ∨
      overflows ∧ ∃ after, search.eval (handlers program.routines (bound + 1)) scope heap =
        .error (.fault indexOverflow) after

/-- The routine that the work of a cell calls, if it is nothing but that. -/
def Heap.delayed? (heap : Heap α ε ρ) (cell : CellId) : Option ρ :=
  match heap.cells[cell]? with
  | some ⟨.plan (.call routine) _, _⟩ => some routine
  | _ => none

/-- How the suspension of a delayed goal is forced. -/
structure Heap.DelaysOnce (heap : SearchHeap A δ) (cell : CellId) (routine : δ × State A) :
    Prop where
  /-- Its work was started once at most. -/
  once : heap.starts.count cell ≤ 1
  /-- If it was not forced before, forcing it starts its work, which is to call the delayed goal. -/
  first : heap.status? cell = some .waiting → heap.starts.count cell = 0 ∧
    ∀ handlers, forceCell handlers cell heap = (do
      Run.setStatus cell .running
      Run.record (.started cell)
      let made ← handlers.call routine
      Run.setStatus cell (.done made)
      pure made : Run (State A) Event (δ × State A) (Stream (State A))) heap
  /-- If it was, forcing it calls nothing, forces nothing else and changes nothing. -/
  again : heap.status? cell ≠ some .waiting → heap.starts.count cell = 1 ∧
    ∃ outcome, Run.left outcome = heap ∧ ∀ handlers, forceCell handlers cell heap = outcome

end Delaying

/-! ## Prompt runs -/

variable {A α γ γ' δ ε ρ : Type}

/-- The handlers know what is done. -/
def Handlers.Ready (handlers : Handlers α ε ρ) : Prop :=
  ∀ {heap : Heap α ε ρ} {cell : CellId} {stream : Stream α},
    heap.status? cell = some (.done stream) → handlers.force cell heap = .ok stream heap

/-- The handlers of routines know what is done. -/
theorem handlers_ready (routines : ρ → Plan α ε ρ) (bound : Nat) :
    (handlers routines (bound + 1)).Ready := by
  intro heap cell stream done
  obtain ⟨work, found⟩ := Heap.exists_of_status? done
  exact forceCell_done _ found

/-- Handlers for cells that are done know them. -/
theorem onlyDone_ready (fault : Fault) : (Handlers.onlyDone fault : Handlers α ε ρ).Ready := by
  intro heap cell stream done
  simp only [Handlers.onlyDone, done]

section Runs

/-- A run comes to the same with all handlers that know what is done. It starts nothing; it is given
up only if it may fail, and its result is right. -/
def Run.Prompt (run : Handlers α ε ρ → Run α ε ρ γ) (heap : Heap α ε ρ) (excuse : Fault)
    (fails : Prop) (right : γ → Heap α ε ρ → Prop) : Prop :=
  ∃ outcome, (∀ handlers, handlers.Ready → run handlers heap = outcome) ∧
    (left outcome).starts = heap.starts ∧
      match outcome with
      | .ok result after => right result after
      | .error stop _ => stop = .fault excuse ∧ fails

namespace Run.Prompt

variable {run : Handlers α ε ρ → Run α ε ρ γ} {heap after : Heap α ε ρ} {excuse : Fault}
  {fails : Prop} {right : γ → Heap α ε ρ → Prop} {good : α → Prop}

/-- A run that uses no handlers is prompt if it starts nothing and its result is right. -/
theorem leaf {single : Run α ε ρ γ} {result : γ} (ran : single heap = .ok result after)
    (starts : after.starts = heap.starts) (is : right result after) :
    Prompt (fun _ => single) heap excuse fails right :=
  ⟨_, fun _ _ => ran, starts, is⟩

/-- A result that is there is right. -/
theorem pure {result : γ} (is : right result heap) :
    Prompt (fun _ => (Pure.pure result : Run α ε ρ γ)) heap excuse fails right :=
  leaf rfl rfl is

/-- A run that may fail is given up. -/
theorem fault (may : fails) :
    Prompt (fun _ => (Run.fault excuse : Run α ε ρ γ)) heap excuse fails right :=
  ⟨_, fun _ _ => rfl, rfl, rfl, may⟩

/-- One run after another. -/
theorem bind {next : Handlers α ε ρ → γ → Run α ε ρ γ'} {right' : γ' → Heap α ε ρ → Prop}
    (first : Prompt run heap excuse fails right)
    (second : ∀ {result : γ} {after : Heap α ε ρ}, right result after →
      Prompt (fun handlers => next handlers result) after excuse fails right') :
    Prompt (fun handlers => run handlers >>= next handlers) heap excuse fails right' := by
  obtain ⟨outcome, same, starts, is⟩ := first
  cases outcome with
  | error stop after =>
    refine ⟨.error stop after, fun handlers ready => ?_, starts, is⟩
    show (run handlers >>= next handlers) heap = _
    rw [bind_apply, same handlers ready]
  | ok result after =>
    obtain ⟨outcome, same', starts', is'⟩ := second is
    refine ⟨outcome, fun handlers ready => ?_, starts'.trans starts, is'⟩
    show (run handlers >>= next handlers) heap = _
    rw [bind_apply, same handlers ready]
    exact same' handlers ready

/-- A run is prompt that may fail in more cases and is right in more. -/
theorem imp {more : Prop} {weaker : γ → Heap α ε ρ → Prop}
    (prompt : Prompt run heap excuse fails right) (may : fails → more)
    (imp : ∀ result after, right result after → weaker result after) :
    Prompt run heap excuse more weaker := by
  obtain ⟨outcome, same, starts, is⟩ := prompt
  refine ⟨outcome, same, starts, ?_⟩
  cases outcome with
  | ok result after => exact imp result after is
  | error stop after => exact ⟨is.1, may is.2⟩

/-- A cell is made for work to be done later. -/
theorem defer (work : Work α ε ρ) :
    Prompt (fun _ => Run.defer work) heap excuse fails fun _ _ => True :=
  leaf rfl rfl trivial

/-- A cell is made for a stream, which is done. -/
theorem known (stream : Stream α) :
    Prompt (fun _ => Run.known stream) heap excuse fails
      fun cell after => after.status? cell = some (.done stream) := by
  refine leaf rfl rfl ?_
  have found : (heap.push ⟨.known stream, .done stream⟩).cells[heap.cells.size]? = _ :=
    (Heap.getElem?_push _ _ _).trans (if_pos rfl)
  exact Heap.status?_eq found

/-- Streams are merged of which the second one is done, if it has to be forced. -/
theorem mergeWith {first : Stream α} {second : CellId} (front : first.Front good)
    (ready : first = .empty → ∃ stream, heap.status? second = some (.done stream) ∧
      stream.Front good) :
    Prompt (fun handlers => first.mergeWith handlers second) heap excuse fails
      fun made _ => made.Front good := by
  cases first with
  | empty =>
    obtain ⟨stream, done, front⟩ := ready rfl
    exact ⟨.ok stream heap, fun handlers ready => ready done, rfl, front⟩
  | cons head tail => exact (defer _).bind fun _ => pure front
  | suspended cell => exact (defer _).bind fun _ => pure trivial

/-- What a flat map makes of a source has in front what the body makes of the value in front of the
source. -/
theorem mapcatWith {good' : α → Prop} {body : α → Plan α ε ρ} {scope : List (Stream α)}
    {apply : Handlers α ε ρ → α → Run α ε ρ (Stream α)} {source : Stream α}
    (front : source.Front good)
    (applied : ∀ value, good value → Prompt (fun handlers => apply handlers value) heap excuse fails
      fun made _ => made.Front good') :
    Prompt (fun handlers => source.mapcatWith handlers body scope (apply handlers)) heap excuse
      fails fun made _ => made.Front good' := by
  cases source with
  | empty => exact pure trivial
  | suspended cell => exact (defer _).bind fun _ => pure trivial
  | cons head tail =>
    refine (applied head front).bind fun {first _} front => (defer _).bind fun _ => ?_
    cases first with
    | empty => exact pure trivial
    | cons first others => exact mergeWith front fun impossible => nomatch impossible
    | suspended cell => exact mergeWith front fun impossible => nomatch impossible

end Run.Prompt

end Runs

section Searches

/-- Wherever the search is made it is prompt. What it may have in front is good, and where it may
fail the indices of new variables run out. -/
def Search.Comes (search : Search A δ) (good : State A → Prop) (fails : Prop) : Prop :=
  ∀ scope heap, Run.Prompt (fun handlers => search.eval handlers scope) heap indexOverflow fails
    fun made _ => made.Front good

namespace Search.Comes

variable {search other : Search A δ} {good good' : State A → Prop} {fails : Prop}

/-- More may stand in front, and there may be more cases of failing. -/
theorem imp {more : Prop} (comes : search.Comes good fails) (may : fails → more)
    (imp : ∀ state, good state → good' state) : search.Comes good' more := by
  intro scope heap
  refine (comes scope heap).imp may fun made _ front => ?_
  cases made with
  | cons head tail => exact imp head front
  | empty | suspended => trivial

/-- Nothing is made. -/
theorem empty : Search.Comes (Plan.empty : Search A δ) good fails := fun _ _ => .pure trivial

/-- A state is made. -/
theorem unit {state : State A} (is : good state) :
    Search.Comes (Plan.unit state : Search A δ) good fails :=
  fun _ _ => (Run.Prompt.known .empty).bind fun _ => .pure is

/-- Anything may be put off. -/
theorem suspend (content : Search A δ) : Search.Comes (Plan.suspend content) good fails :=
  fun _ _ => (Run.Prompt.defer _).bind fun _ => .pure trivial

/-- The search may fail for want of indices. -/
theorem fail (may : fails) :
    Search.Comes (Plan.fail indexOverflow : Search A δ) good fails :=
  fun _ _ => .fault may

/-- Something is reported beforehand. -/
theorem report (event : Event) (comes : search.Comes good fails) :
    Search.Comes (Plan.report event search) good fails := by
  intro scope heap
  have recorded : Run.Prompt (fun _ => Run.record (.reported event)) heap indexOverflow fails
      fun _ _ => True := .leaf rfl (Heap.starts_report heap event) trivial
  exact recorded.bind fun _ => comes scope _

/-- Some things are reported beforehand. -/
theorem reportAll (events : List Event) (comes : search.Comes good fails) :
    Search.Comes (Plan.reportAll events search) good fails := by
  induction events with
  | nil => exact comes
  | cons event events later => exact later.report event

/-- The answers of a search are searched further. -/
theorem mapcat {body : State A → Search A δ} (comes : search.Comes good fails)
    (applied : ∀ state, good state → (body state).Comes good' fails) :
    Search.Comes (Plan.mapcat search body) good' fails :=
  fun scope heap => (comes scope heap).bind fun front =>
    .mapcatWith front fun state is => applied state is scope _

/-- A search takes turns with another one that is made before it. -/
theorem before (comes : search.Comes good fails) (others : other.Comes good fails) :
    Search.Comes (Plan.share other (.merge (.computed fun _ => search) (.ref 0))) good fails := by
  intro scope heap
  refine (others scope heap).bind fun {made _} front =>
    (comes (made :: scope) _).bind fun {first after} front' => ?_
  have merged : Run.Prompt (fun handlers => first.merge handlers made) after indexOverflow fails
      fun made _ => made.Front good :=
    (Run.Prompt.known made).bind fun done => .mergeWith front' fun _ => ⟨made, done, front⟩
  exact merged

end Search.Comes

/-- A cell whose work calls a routine is there. -/
theorem Heap.exists_of_delayed? {heap : Heap α ε ρ} {cell : CellId} {routine : ρ}
    (delayed : heap.delayed? cell = some routine) :
    ∃ scope status, heap.cells[cell]? = some ⟨.plan (.call routine) scope, status⟩ := by
  unfold Heap.delayed? at delayed
  split at delayed
  · next found =>
    cases delayed
    exact ⟨_, _, found⟩
  · exact nomatch delayed

/-- The suspension of a delayed goal calls it once at most, where every cell tells how often its
work was started. -/
theorem Heap.Orderly.delaysOnce {heap : SearchHeap A δ} (orderly : heap.Orderly) {cell : CellId}
    {routine : δ × State A} (delayed : heap.delayed? cell = some routine) :
    heap.DelaysOnce cell routine := by
  obtain ⟨scope, status, found⟩ := exists_of_delayed? delayed
  have told := orderly cell
  rw [found] at told
  refine ⟨orderly.once cell, fun waiting => ⟨?_, fun handlers => ?_⟩, fun begun => ⟨?_, ?_⟩⟩
  · rw [status?_eq found, Option.some.injEq] at waiting
    subst waiting
    generalize heap.starts.count cell = number at told
    cases told with
    | waiting => rfl
    | begun _ begun => exact absurd rfl begun
  · rw [status?_eq found, Option.some.injEq] at waiting
    subst waiting
    exact forceCell_waiting handlers found
  · rw [status?_eq found] at begun
    generalize heap.starts.count cell = number at told
    cases told with
    | waiting => exact absurd rfl begun
    | begun => rfl
  · rw [status?_eq found] at begun
    cases status with
    | waiting => exact absurd rfl begun
    | running => exact ⟨_, rfl, fun handlers => forceCell_running handlers found⟩
    | done stream => exact ⟨_, rfl, fun handlers => forceCell_done handlers found⟩

section Goals

variable [BEq A] [Decidable (ReflBEq A)]

namespace Goal

/-- Wherever the goal is calculated from a state without cycles it is prompt. -/
def Waits (goal : Goal A δ) : Prop :=
  ∀ {state : State A}, state.substitution.Acyclic →
    Search.Comes (goal.calculate state) (fun answer => ∃ way, Derives .barren goal state answer way)
      (Overflows .barren goal state)

/-- Unification is prompt. -/
theorem waits_unify (left right : Term A) : Waits (.unify left right : Goal A δ) := by
  intro state acyclic
  show Search.Comes (equate left right state) _ _
  unfold equate
  cases unified : Relational.unify left right state.substitution with
  | ok substitution => exact .unit ⟨[], .unify ((unify?_eq_ok_iff acyclic).mpr unified)⟩
  | error reason => exact .report _ .empty

/-- Several goals are prompt one after another. -/
theorem comes_calculateAll {goals : List (Goal A δ)} (each : ∀ goal ∈ goals, goal.Waits)
    {answers : Search A δ} {good : State A → Prop} {fails : Prop}
    (acyclic : ∀ state, good state → state.substitution.Acyclic)
    (comes : answers.Comes good fails) :
    Search.Comes (calculateAll goals answers)
      (fun answer => ∃ start way, good start ∧ DerivesAll .barren goals start answer way)
      (fails ∨ ∃ start, good start ∧ OverflowsAll .barren goals start) := by
  induction goals generalizing answers good fails with
  | nil => exact comes.imp .inl fun state is => ⟨state, [], is, .nil⟩
  | cons goal goals later =>
    obtain ⟨first, rest⟩ := List.forall_mem_cons.mp each
    let next := fun answer => ∃ start way, good start ∧ Derives .barren goal start answer way
    have mapped : Search.Comes (Plan.mapcat answers fun state => goal.calculate state) next
        (fails ∨ ∃ start, good start ∧ Overflows .barren goal start) := by
      refine (comes.imp .inl fun _ is => is).mapcat fun start is => ?_
      exact (first (acyclic start is)).imp (fun full => .inr ⟨start, is, full⟩)
        fun _ ⟨way, derivation⟩ => ⟨start, way, is, derivation⟩
    have kept : ∀ state, next state → state.substitution.Acyclic :=
      fun _ ⟨start, _, is, derivation⟩ => derivation.acyclic (acyclic start is)
    refine (later rest kept mapped).imp ?_ ?_
    · rintro ((may | ⟨start, is, full⟩) | ⟨middle, ⟨start, way, is, derivation⟩, full⟩)
      · exact .inl may
      · exact .inr ⟨start, is, overflowsAll_cons.mpr (.inl full)⟩
      · exact .inr ⟨start, is, overflowsAll_cons.mpr (.inr ⟨middle, way, derivation, full⟩)⟩
    · rintro answer ⟨middle, further, ⟨start, way, is, derivation⟩, others⟩
      exact ⟨start, way ++ further, is, .cons derivation others⟩

/-- Several goals are prompt one beside another. -/
theorem comes_calculateAny {goals : List (Goal A δ)} {state : State A} {good : State A → Prop}
    {fails : Prop} (each : ∀ goal ∈ goals, Search.Comes (goal.calculate state) good fails) :
    Search.Comes (calculateAny goals state) good fails := by
  induction goals with
  | nil => exact .empty
  | cons goal goals later =>
    obtain ⟨first, rest⟩ := List.forall_mem_cons.mp each
    exact first.before (later rest)

/-- All goals are prompt. -/
theorem waits (goal : Goal A δ) : goal.Waits := by
  induction goal using Goal.induct with
  | unify left right => exact waits_unify left right
  | delay name => exact fun _ => .suspend _
  | conjunction goals each =>
    intro state acyclic
    have start : Search.Comes (Plan.unit state : Search A δ) (· = state) False := .unit rfl
    have only : ∀ start, start = state → start.substitution.Acyclic := by
      rintro _ rfl
      exact acyclic
    refine (comes_calculateAll each only start).imp ?_ ?_
    · rintro (impossible | ⟨_, rfl, full⟩)
      · exact impossible.elim
      · exact overflows_conjunction full
    · rintro answer ⟨_, way, rfl, derivation⟩
      exact ⟨way, .conjunction derivation⟩
  | disjunction goals each =>
    intro state acyclic
    refine comes_calculateAny fun goal member => (each goal member acyclic).imp ?_ ?_
    · exact .disjunction member
    · rintro answer ⟨way, derivation⟩
      exact ⟨way, .disjunction member derivation⟩
  | fresh count notes build each =>
    intro state acyclic
    cases allocated : state.allocate? count with
    | none =>
      rw [calculate, allocated]
      exact .fail (.here allocated)
    | some found =>
      obtain ⟨vars, next⟩ := found
      have kept := State.substitution_of_allocate? allocated
      rw [calculate_fresh allocated]
      refine (Search.Comes.reportAll _ (each vars (kept ▸ acyclic))).report _ |>.imp ?_ ?_
      · exact .fresh allocated
      · rintro answer ⟨way, derivation⟩
        exact ⟨_, .fresh allocated derivation⟩

end Goal

/-- What comes to the same with all handlers that know what is done is made promptly by every
program. -/
theorem Search.Comes.prompt {search : Search A δ} {good : State A → Prop} {fails : Prop}
    (comes : search.Comes good fails) (program : Program A δ) : search.Prompt program fails where
  idle bound fault scope heap := by
    obtain ⟨outcome, same, _⟩ := comes scope heap
    exact (same _ (handlers_ready _ bound)).trans (same _ (onlyDone_ready fault)).symm
  starts bound scope heap := by
    obtain ⟨outcome, same, starts, _⟩ := comes scope heap
    have same : search.eval (handlers program.routines (bound + 1)) scope heap = outcome :=
      same _ (handlers_ready program.routines bound)
    rw [same]
    exact starts
  ends bound scope heap := by
    obtain ⟨outcome, same, _, is⟩ := comes scope heap
    have same := same _ (handlers_ready program.routines bound)
    cases outcome with
    | ok made after => exact .inl ⟨made, after, same⟩
    | error stop after =>
      obtain ⟨rfl, may⟩ := is
      exact .inr ⟨may, after, same⟩

namespace Goal

/-- Delayed goals are not built early. Calculating a goal from a state without cycles, solving it
and running it as a query calls no delayed goal and does no work that was put off: it goes the same
way where delayed goals are faults, and it ends unless on some way through the goal, but through no
delayed one, the indices of new variables run out. An iterator of the stream that is made forces
nothing before it is pulled. A delayed goal is put off in a cell of its own; whatever is done then,
the goal is called once at most for this cell, when it is forced for the first time. -/
theorem delays_wait_for_force (program : Program A δ) :
    (∀ (goal : Goal A δ) {state : State A}, state.substitution.Acyclic →
      Search.Prompt program (Overflows .barren goal state) (goal.calculate state)) ∧
    (∀ goal : Goal A δ, Search.Prompt program (Overflows .barren goal .initial) goal.solve) ∧
    (∀ (query : Query) (build : List (Term A) → Built A δ),
      Search.Prompt program (Overflows .barren (build query.vars).goal query.start)
        (query.run build)) ∧
    (∀ (bound number : Nat) (session : Session (State A) Event (δ × State A)),
      (session.perform program.routines bound (.iterate number)).2.heap = session.heap) ∧
    (∀ name state handlers scope (heap : SearchHeap A δ), ∃ after : SearchHeap A δ,
      ((delay name).calculate state).eval handlers scope heap =
          .ok (.suspended heap.cells.size) after ∧
        after.delayed? heap.cells.size = some (name, state) ∧
        after.status? heap.cells.size = some .waiting) ∧
    ∀ bound actions cell routine,
      let late := (Session.empty.performAll program.routines bound actions).2
      late.heap.delayed? cell = some routine → late.heap.DelaysOnce cell routine := by
  refine ⟨fun goal state acyclic => (goal.waits acyclic).prompt program, fun goal => ?_,
    fun query build => ?_, fun _ _ _ => rfl, fun name state handlers scope heap => ?_, ?_⟩
  · exact ((goal.waits Substitution.acyclic_empty).report _).prompt program
  · have calculated : Search.Comes ((build query.vars).goal.calculate query.start) _ _ :=
      (build query.vars).goal.waits Substitution.acyclic_empty
    exact (((Search.Comes.reportAll _ calculated).report _).report _).prompt program
  · have found : (heap.push ⟨.plan (.call (name, state)) scope, .waiting⟩).cells[heap.cells.size]? =
        _ := (Heap.getElem?_push heap _ _).trans (if_pos rfl)
    refine ⟨_, rfl, ?_, Heap.status?_eq found⟩
    show Heap.delayed? (heap.push _) _ = _
    rw [Heap.delayed?, found]
  · intro bound actions cell routine late delayed
    have lives : (Session.empty.heap : SearchHeap A δ).Lives late.heap :=
      Session.performAllWith_lives (handlers_last program.routines bound) bound actions .empty
    exact (Heap.orderly_empty.course lives.course).delaysOnce delayed

/-- An endless delayed goal stands beside one that is a fault. Calculating the conjunction of them
with others forces nothing. After some steps one suspension of the endless goal was forced, another
one was not, and the work of the fault was given up. -/
theorem calculated_beside_faults :
    let program : Program Int64 Bool := fun name =>
      bif name then ⟨["full"], .fresh 18446744073709551615 (fun _ => []) fun _ => .fail⟩
      else ⟨["again"], .delay false⟩
    let goal : Goal Int64 Bool := .conjunction
      [.disjunction [.delay false, .fresh 1 (fun _ => []) fun _ => .delay true], .delay false]
    let search := goal.calculate ⟨IntMap.empty, 7⟩
    let late := (Session.empty.performAll program.routines 5
      [.make search, .force 0, .force 1, .force 1, .force 2]).2
    (∀ fault, search.eval (handlers program.routines 1) [] .empty =
        search.eval (.onlyDone fault) [] .empty) ∧
      (Run.left (search.eval (handlers program.routines 1) [] .empty)).starts = [] ∧
      late.heap.starts.count 1 = 1 ∧ late.heap.starts.count 4 = 1 ∧
      late.heap.starts.count 12 = 0 ∧
      ∀ cell ∈ [1, 4, 12], ∃ routine, late.heap.DelaysOnce cell routine := by
  intro program goal search late
  obtain ⟨calculated, _, _, _, _, once⟩ := delays_wait_for_force program
  have prompt : Search.Prompt program _ search := calculated goal Substitution.acyclic_empty
  have delayed : ∀ cell ∈ [1, 4, 12], (late.heap.delayed? cell).isSome := by decide +kernel
  refine ⟨fun fault => prompt.idle 0 fault [] .empty, prompt.starts 0 [] .empty,
    by decide +kernel, by decide +kernel, by decide +kernel, fun cell member => ?_⟩
  obtain ⟨routine, found⟩ := Option.isSome_iff_exists.mp (delayed cell member)
  exact ⟨routine, once 5 _ cell routine found⟩

/-- There is no stream where the indices of new variables run out, although the goals outside the
delayed one are finitely many: the new variable would be the one behind the largest index. -/
theorem calculation_overflows :
    let program : Program Int64 Unit := fun _ => ⟨[], .succeed⟩
    let goal : Goal Int64 Unit := .disjunction [.fresh 1 (fun _ => []) fun _ => .fail, .delay ()]
    let state : State Int64 := ⟨IntMap.empty, 18446744073709551615⟩
    state.substitution.Acyclic ∧ ∀ bound, ∃ after,
      (goal.calculate state).eval (handlers program.routines bound) [] .empty =
        .error (.fault indexOverflow) after :=
  ⟨Substitution.acyclic_empty, fun _ => ⟨_, rfl⟩⟩

end Goal

end Goals

end Searches

end Relational
