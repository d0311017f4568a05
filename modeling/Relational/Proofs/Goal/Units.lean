import Relational.Proofs.Goal.Derivation
import Relational.Proofs.Stream.Likeness

/-!
# Goals that make no difference

The goal that always holds makes no difference among the goals of a conjunction, and the goal that
never holds makes none among the goals of a disjunction: not to an answer, nor to a tick, nor to
where either stands among the steps. What is shown is compared step by step, so nothing is assumed
about where it ends, and where a search is given up both sides are.
-/
namespace Relational

open Unshared (Agree)

section Streams

variable {α ε ρ : Type} {routines : ρ → Plan α ε ρ} {base : Heap α ε ρ} {reading : Reading α ε ρ}

namespace Unshared

variable (fixed : Reading.Fixed routines base reading) {value : α} {rest : Recipe α ε ρ}
  (ended : reading.force rest = some .empty) {body : α → Plan α ε ρ}
  {scope : List (Unshared α ε ρ)} {apply : α → Option (Unshared α ε ρ)}

include fixed ended

/-- Behind the last value a flat map has ended. -/
theorem force_mapcat_ended : reading.force (.mapcat rest body scope) = some .empty := by
  rw [fixed.force_mapcat, ended]
  rfl

/-- A flat map of one value is what is made of the value, unless that ends at once. -/
theorem agree_mapcatWith_once (goes : apply value ≠ some .empty) (count : Nat) :
    Agree reading reading count ((cons value rest).mapcatWith reading body scope apply)
      (apply value) := by
  cases made : apply value with
  | none =>
    rw [mapcatWith_cons_none made]
    exact .none
  | some stream =>
    rw [mapcatWith_cons made fun empty => goes (made.trans (congrArg some empty))]
    exact agree_mergeWith_ended fixed (force_mapcat_ended fixed ended) stream

/-- Where what is made of the value ends at once, the flat map does so after one tick. -/
theorem observe_mapcatWith_once (stops : apply value = some .empty) (count : Nat) :
    ((cons value rest).mapcatWith reading body scope apply).bind (observe reading count) =
      some (([.tick, .finish] : Steps α).take count) := by
  rw [mapcatWith_cons_empty stops, Option.bind_some]
  cases count with
  | zero => rw [observe_zero, List.take_zero]
  | succ count =>
    rw [observe_suspended, List.take_succ_cons]
    cases count with
    | zero => rfl
    | succ count =>
      show ((reading.force (.mapcat rest body scope)).bind (observe reading (count + 1))).map _ = _
      rw [force_mapcat_ended fixed ended, Option.bind_some, observe_empty, Option.map_some,
        List.take_succ_cons, List.take_nil]

end Unshared

/-- Nothing that a plan makes emits a value. -/
def Plan.Silent (reading : Reading α ε ρ) (plan : Plan α ε ρ) : Prop :=
  ∀ scope stream value, plan.read reading scope = some stream → ¬ stream.Emits reading value

/-- A flat map emits nothing where its source emits nothing or nothing is made of any value. -/
theorem Plan.Silent.mapcat (fixed : Reading.Fixed routines base reading) {source : Plan α ε ρ}
    {body : α → Plan α ε ρ}
    (silent : source.Silent reading ∨ ∀ value, (body value).Silent reading) :
    (Plan.mapcat source body).Silent reading := by
  intro scope stream value read emitted
  obtain ⟨first, readSource, made⟩ := Option.bind_eq_some_iff.mp read
  obtain ⟨limit, within⟩ := emitted.exists_emitsWithin
  obtain ⟨origin, inner, found, readBody, later⟩ :=
    Unshared.exists_of_mapcatWith fixed made within
  rcases silent with quiet | quiet
  · exact quiet scope first origin readSource found.emits
  · exact quiet origin scope inner value readBody later.emits

end Streams

namespace Goal

variable {A δ : Type}

/-- Some goals with a further one put before, between and behind them, any number of times. -/
inductive Interspersed (unit : Goal A δ) : List (Goal A δ) → List (Goal A δ) → Prop where
  /-- There are no goals. -/
  | nil : Interspersed unit [] []
  /-- A goal is kept. -/
  | keep (goal : Goal A δ) {goals more : List (Goal A δ)} (later : Interspersed unit goals more) :
    Interspersed unit (goal :: goals) (goal :: more)
  /-- The further goal is put before the next one, or behind all of them. -/
  | insert {goals more : List (Goal A δ)} (later : Interspersed unit goals more) :
    Interspersed unit goals (unit :: more)

/-- Goals among which nothing is put are the same. -/
theorem Interspersed.refl {unit : Goal A δ} (goals : List (Goal A δ)) :
    Interspersed unit goals goals := by
  induction goals with
  | nil => exact .nil
  | cons goal goals later => exact .keep goal later

variable [BEq A] [Decidable (ReflBEq A)]

section Alikeness

variable {program : Program A δ} {base : SearchHeap A δ}
  {reading : Reading (State A) Event (δ × State A)} {goals more : List (Goal A δ)}

/-- What is left of like answers by the goals of a conjunction is alike, also where the goal that
always holds is among them. -/
theorem alike_calculateAll (fixed : Reading.Fixed program.routines base reading)
    (each : ∀ goal ∈ goals, ∀ state,
      Plan.Alike reading (goal.calculate state) (goal.calculate state))
    (interspersed : Interspersed succeed goals more) {answers others : Search A δ}
    (same : Plan.Alike reading answers others) :
    Plan.Alike reading (calculateAll more answers) (calculateAll goals others) := by
  induction interspersed generalizing answers others with
  | nil => exact same
  | keep goal _ later =>
    have here := each goal (List.mem_cons_self ..)
    exact later (fun other member => each other (List.mem_cons_of_mem _ member))
      (.mapcat fixed same here)
  | insert _ later => exact later each (.mapcat_unit fixed same)

/-- The branches of a disjunction make what is alike, also where the goal that never holds is among
them. -/
theorem alike_calculateAny (fixed : Reading.Fixed program.routines base reading) {state : State A}
    (each : ∀ goal ∈ goals, Plan.Alike reading (goal.calculate state) (goal.calculate state))
    (interspersed : Interspersed fail goals more) :
    Plan.Alike reading (calculateAny more state) (calculateAny goals state) := by
  induction interspersed with
  | nil => exact .of_eq (fun _ => rfl) fun _ => rfl
  | keep goal _ later =>
    have here := each goal (List.mem_cons_self ..)
    exact .before fixed here
      (later fun other member => each other (List.mem_cons_of_mem _ member))
  | insert _ later => exact .empty_before fixed (later each)

/-- The search for a goal does not depend on what it may refer to. -/
theorem alike (fixed : Reading.Fixed program.routines base reading) (goal : Goal A δ)
    (state : State A) : Plan.Alike reading (goal.calculate state) (goal.calculate state) := by
  induction goal using Goal.induct generalizing state with
  | unify left right =>
    show Plan.Alike reading (equate left right state) (equate left right state)
    unfold equate
    cases Relational.unify left right state.substitution with
    | ok substitution => exact .unit _
    | error reason => exact .of_eq (fun _ => rfl) fun _ => rfl
  | conjunction goals each => exact alike_calculateAll fixed each (.refl goals) (.unit state)
  | disjunction goals each =>
    exact alike_calculateAny fixed (fun goal member => each goal member state) (.refl goals)
  | fresh count notes build each =>
    rw [calculate]
    cases state.allocate? count with
    | none => exact .of_eq (fun _ => rfl) fun _ => rfl
    | some entry => exact .report _ (.reportAll _ (each entry.1 entry.2))
  | delay name => exact .suspend_call fixed (name, state)

/-- A conjunction in which the goal that never holds stands emits nothing. -/
theorem silent_calculateAll (fixed : Reading.Fixed program.routines base reading)
    {answers : Search A δ} (silent : answers.Silent reading ∨ fail ∈ goals) :
    (calculateAll goals answers).Silent reading := by
  induction goals generalizing answers with
  | nil => exact silent.resolve_right (List.not_mem_nil)
  | cons goal goals later =>
    apply later
    rcases silent with quiet | member
    · exact .inl (.mapcat fixed (.inl quiet))
    · rcases List.mem_cons.mp member with rfl | member
      · refine .inl (.mapcat fixed (.inr fun state scope stream value read emitted => ?_))
        cases read
        exact nomatch emitted
      · exact .inr member

end Alikeness

/-- The goal that always holds and the goal that never holds are units of conjunctions and of
disjunctions, step by step. -/
structure Units (program : Program A δ) (heap : SearchHeap A δ) (scope : List (Stream (State A)))
    (state : State A) : Prop where
  /-- The goal that always holds shows the state and the end. -/
  succeeds : ∀ count steps,
    (succeed.calculate state : Search A δ).Shows program.routines heap scope count steps ↔
      steps = ([.value state, .finish] : Steps (State A)).take count
  /-- The goal that never holds shows the end. -/
  fails : ∀ count steps,
    (fail.calculate state : Search A δ).Shows program.routines heap scope count steps ↔
      steps = ([.finish] : Steps (State A)).take count
  /-- A conjunction shows the same steps with the goal that always holds at any places in it. -/
  conjunction : ∀ {goals more : List (Goal A δ)}, Interspersed succeed goals more →
    ∀ count steps,
      ((Goal.conjunction more).calculate state).Shows program.routines heap scope count steps ↔
        ((Goal.conjunction goals).calculate state).Shows program.routines heap scope count steps
  /-- A disjunction shows the same steps with the goal that never holds at any places in it. -/
  disjunction : ∀ {goals more : List (Goal A δ)}, Interspersed fail goals more →
    ∀ count steps,
      ((Goal.disjunction more).calculate state).Shows program.routines heap scope count steps ↔
        ((Goal.disjunction goals).calculate state).Shows program.routines heap scope count steps
  /-- A disjunction of one goal shows the steps of the goal. -/
  branch : ∀ (goal : Goal A δ) count steps,
    ((Goal.disjunction [goal]).calculate state).Shows program.routines heap scope count steps ↔
      (goal.calculate state).Shows program.routines heap scope count steps
  /-- So does a conjunction of one goal, unless the goal ends at once. -/
  conjunct : ∀ goal : Goal A δ,
    ¬ (goal.calculate state).Shows program.routines heap scope 1 [.finish] → ∀ count steps,
      ((Goal.conjunction [goal]).calculate state).Shows program.routines heap scope count steps ↔
        (goal.calculate state).Shows program.routines heap scope count steps
  /-- If it does, the conjunction shows one tick and the end. -/
  endedConjunct : ∀ goal : Goal A δ,
    (goal.calculate state).Shows program.routines heap scope 1 [.finish] → ∀ count steps,
      ((Goal.conjunction [goal]).calculate state).Shows program.routines heap scope count steps ↔
        steps = ([.tick, .finish] : Steps (State A)).take count
  /-- A conjunction with the goal that never holds at any place in it shows no answer. -/
  silent : ∀ goals : List (Goal A δ), fail ∈ goals → ∀ count steps,
    ((Goal.conjunction goals).calculate state).Shows program.routines heap scope count steps →
      steps.values = []

section Single

variable {program : Program A δ} {heap : SearchHeap A δ} (closed : heap.Closed)
  {scope : List (Stream (State A))} (within : ∀ stream ∈ scope, stream.Within heap.cells.size)
  {goal : Goal A δ} {state : State A} {count : Nat} {steps : Steps (State A)}

include closed within

/-- A conjunction of one goal shows what is seen of a flat map of one state. -/
theorem shows_conjunct_iff :
    ((Goal.conjunction [goal]).calculate state).Shows program.routines heap scope count steps ↔
      ((Unshared.cons state (.known .empty)).mapcatWith (.full program.routines heap)
        goal.calculate (scope.map (Stream.unshared .cell)) fun state =>
          (goal.calculate state).read (.full program.routines heap)
            (scope.map (Stream.unshared .cell))).bind
              (Unshared.observe (.full program.routines heap) count) = some steps :=
  Plan.shows_iff_observe closed within

/-- The end is the first step of what ends at once. -/
theorem shows_finish_iff {search : Search A δ} :
    search.Shows program.routines heap scope 1 [.finish] ↔
      search.read (.full program.routines heap) (scope.map (Stream.unshared .cell)) =
        some .empty := by
  rw [Stream.plan_shows_iff closed within]
  constructor
  · rintro ⟨made, read, seen⟩
    cases made with
    | empty => exact read
    | cons | suspended => exact nomatch seen
  · exact fun read => ⟨.empty, read, rfl⟩

end Single

/-- The goals that always and never hold are exact units. One shows the state it is calculated from
and the other one only the end. Before, between and behind the goals of a conjunction or a
disjunction its unit, any number of times, leaves every step as it is, endless ones and those before
a search is given up included. A single goal is its own disjunction, and its own conjunction unless
it ends at once, where one tick is added. A conjunction with the goal that never holds has no
answers. -/
theorem units (program : Program A δ) {heap : SearchHeap A δ} (closed : heap.Closed)
    {scope : List (Stream (State A))} (within : ∀ stream ∈ scope, stream.Within heap.cells.size)
    (state : State A) : Units program heap scope state := by
  have fixed := Reading.limit_fixed program.routines heap
  have ended := fixed.force (.known .empty)
  refine {
    succeeds := fun _ _ => (Plan.Reads.unit fixed state).shows_iff closed within
    fails := fun _ _ => Plan.Reads.empty.shows_iff closed within
    conjunction := ?conjunction
    disjunction := ?disjunction
    branch := ?branch
    conjunct := ?conjunct
    endedConjunct := ?endedConjunct
    silent := ?silent }
  case conjunction =>
    intro goals more interspersed count steps
    exact (alike_calculateAll fixed (fun goal _ => alike fixed goal) interspersed
      (.unit state)).shows_iff closed within within
  case disjunction =>
    intro goals more interspersed count steps
    exact (alike_calculateAny fixed (fun goal _ => alike fixed goal state)
      interspersed).shows_iff closed within within
  case branch =>
    intro goal count steps
    exact (Plan.Alike.before_empty fixed (alike fixed goal state)).shows_iff closed within within
  case conjunct =>
    intro goal goes count steps
    rw [shows_finish_iff closed within] at goes
    rw [shows_conjunct_iff closed within, Plan.shows_iff_observe closed within,
      Agree.observe_eq (Unshared.agree_mapcatWith_once fixed ended goes)]
  case endedConjunct =>
    intro goal stops count steps
    rw [shows_finish_iff closed within] at stops
    rw [shows_conjunct_iff closed within, Unshared.observe_mapcatWith_once fixed ended stops,
      Option.some.injEq]
    exact eq_comm
  case silent =>
    intro goals member count steps shows
    obtain ⟨made, read, seen⟩ := (Stream.plan_shows_iff closed within).mp shows
    refine List.filterMap_eq_nil_iff.mpr fun step there => ?_
    cases step with
    | finish | tick => rfl
    | value answer =>
      exact absurd (Unshared.Emits.of_observe seen there)
        (silent_calculateAll fixed (.inr member) _ made answer read)

/-- A delayed goal that stands for itself shows ticks and nothing else. With units all around it
there is neither one more nor one less of them, and with the goal that never holds behind it there
is no answer. The routine makes a suspension of itself. -/
theorem units_around_endless_ticks :
    let program : Program Int64 Unit := fun _ => ⟨[], .delay ()⟩
    let start : State Int64 := ⟨IntMap.empty, 2⟩
    let padded : Goal Int64 Unit :=
      .conjunction [.succeed, .disjunction [.fail, .delay (), .fail], .succeed, .succeed]
    (∀ count, (padded.calculate start).Shows program.routines .empty [] count
        (List.replicate count .tick)) ∧
      ((Goal.conjunction [.fail]).calculate start).Shows program.routines .empty [] 2
        [.tick, .finish] ∧
      ∀ count steps, ((Goal.conjunction [.delay (), .fail]).calculate start).Shows program.routines
        .empty [] count steps → steps.values = [] := by
  intro program start padded
  have within : ∀ stream ∈ ([] : List (Stream (State Int64))),
      stream.Within (Heap.empty : SearchHeap Int64 Unit).cells.size := List.forall_mem_nil _
  have laws := units program Heap.closed_empty within start
  have fixed := Reading.limit_fixed program.routines (.empty : SearchHeap Int64 Unit)
  have ticks (count : Nat) (scope : List (Unshared (State Int64) Event (Unit × State Int64))) :
      (Unshared.suspended (.plan (.call ((), start)) scope)).observe
        (.full program.routines .empty) count = some (List.replicate count .tick) := by
    induction count generalizing scope with
    | zero => rw [Unshared.observe_zero, List.replicate_zero]
    | succ count further =>
      have forced : Reading.force (.full program.routines .empty)
          (.plan (.call ((), start)) scope) = some (.suspended (.plan (.call ((), start)) [])) :=
        (fixed.force _).trans (fixed.call ((), start))
      rw [Unshared.observe_suspended, Unshared.observe_of_force forced (further [])]
      rfl
  have delayed (count : Nat) : ((Goal.delay ()).calculate start).Shows program.routines .empty []
      count (List.replicate count .tick) :=
    (Stream.plan_shows_iff Heap.closed_empty within).mpr ⟨_, rfl, ticks count _⟩
  have branches : Interspersed (fail : Goal Int64 Unit) [.delay ()] [.fail, .delay (), .fail] :=
    .insert (.keep _ (.insert .nil))
  have conjuncts (goal : Goal Int64 Unit) :
      Interspersed succeed [goal] [.succeed, goal, .succeed, .succeed] :=
    .insert (.keep _ (.insert (.insert .nil)))
  have surrounded (count : Nat) := (laws.disjunction branches count _).mpr
    ((laws.branch _ count _).mpr (delayed count))
  refine ⟨fun count => ?_, ?_, fun count steps => laws.silent _ (by simp) count steps⟩
  · refine (laws.conjunction (conjuncts _) count _).mpr
      ((laws.conjunct _ (fun ends => ?_) count _).mpr (surrounded count))
    have same := (Plan.shows_iff_observe Heap.closed_empty within).mp ends
    rw [(Plan.shows_iff_observe Heap.closed_empty within).mp (surrounded 1)] at same
    exact nomatch same
  · exact (laws.endedConjunct .fail ⟨0, _, _, rfl, 0, _, rfl⟩ 2 _).mpr rfl

end Goal

end Relational
