import Mathlib.Data.List.Forall2
import Relational.Proofs.Goal.Fairness
import Relational.Proofs.Goal.Units

/-!
# Branches

A disjunction takes turns between its first goal and the disjunction of the others. So its goals
are the fronts of nested alternations, and each of them has its turns at places that depend on how
many goals stand before it and not on what these are: whether they have answers without end, tick
without end or end early. No step of a goal is lost, none is added, and the disjunction ends when
all of its goals have ended.
-/
namespace Relational.Goal

variable {A δ : Type} [BEq A] [Decidable (ReflBEq A)]

/-- The steps of the searches for some goals from a state are the steps of the search for their
disjunction, each at a place of its own. -/
structure Interleaves (program : Program A δ) (heap : SearchHeap A δ)
    (scope : List (Stream (State A))) (goals : List (Goal A δ)) (state : State A)
    (place : Nat → Nat → Nat) : Prop where
  /-- The steps of one goal keep their order. -/
  order : ∀ branch, StrictMono (place branch)
  /-- No step of a goal is lost. -/
  kept : ∀ {branch index : Nat} {goal : Goal A δ} {step : Step (State A)},
    goals[branch]? = some goal → step ≠ .finish →
      (goal.calculate state).StepAt program.routines heap scope index step →
        ((disjunction goals).calculate state).StepAt program.routines heap scope
          (place branch index) step
  /-- There are no other steps. -/
  source : ∀ {index : Nat} {step : Step (State A)}, step ≠ .finish →
    ((disjunction goals).calculate state).StepAt program.routines heap scope index step →
      ∃ branch inner goal, place branch inner = index ∧ goals[branch]? = some goal ∧
        (goal.calculate state).StepAt program.routines heap scope inner step
  /-- No step stands for several. -/
  apart : ∀ {branch index branch' index' : Nat} {goal goal' : Goal A δ}
    {step step' : Step (State A)}, step ≠ .finish → step' ≠ .finish →
      goals[branch]? = some goal →
        (goal.calculate state).StepAt program.routines heap scope index step →
          goals[branch']? = some goal' →
            (goal'.calculate state).StepAt program.routines heap scope index' step' →
              place branch index = place branch' index' → branch = branch' ∧ index = index'
  /-- The end comes when all goals have ended. -/
  ends : (∃ index, ((disjunction goals).calculate state).StepAt program.routines heap scope index
      .finish) ↔
    ∀ goal ∈ goals, ∃ index,
      (goal.calculate state).StepAt program.routines heap scope index .finish
  /-- No goal waits for the others longer than the number of goals before it allows. -/
  soon : ∀ branch index, place branch index ≤ 2 ^ branch * (2 * index + 1) - 1

/-- The search for the goal at a place, or for nothing where there is no goal. -/
def branch (goals : List (Goal A δ)) (state : State A) (index : Nat) : Search A δ :=
  match goals[index]? with
  | some goal => goal.calculate state
  | none => .empty

section Reading

variable {program : Program A δ} {base : SearchHeap A δ}
  {reading : Reading (State A) Event (δ × State A)}
  (fixed : Reading.Fixed program.routines base reading) {goals : List (Goal A δ)}
  {state : State A}

/-- The search for the goal that stands at a place. -/
theorem branch_eq {index : Nat} {goal : Goal A δ} (there : goals[index]? = some goal) :
    branch goals state index = goal.calculate state := by
  rw [branch, there]

include fixed

/-- The goals behind so many take turns between the first of them and the others. -/
theorem alike_turn (goals : List (Goal A δ)) (state : State A) (level : Nat) :
    Plan.Alike reading
      ((branch goals state level).before (calculateAny (goals.drop (level + 1)) state))
      (calculateAny (goals.drop level) state) := by
  have nothing : Plan.Alike reading (.empty : Search A δ) .empty :=
    .of_eq (fun _ => rfl) fun _ => rfl
  by_cases short : level < goals.length
  · have drop := List.drop_eq_getElem_cons short
    rw [branch_eq (List.getElem?_eq_getElem short), drop]
    exact .before fixed (alike fixed _ state) (alike fixed (.disjunction _) state)
  · have beyond : goals.length ≤ level := Nat.le_of_not_lt short
    rw [branch, List.getElem?_eq_none beyond, List.drop_eq_nil_of_le beyond,
      List.drop_eq_nil_of_le (Nat.le_succ_of_le beyond)]
    exact .before_empty fixed nothing

/-- The steps of the goals in turn are read of their disjunction. -/
theorem reads_calculateAny {count : Nat} {seen : List (Steps (State A))}
    (each : List.Forall₂ (fun goal steps => (goal.calculate state).Reads reading count steps)
      goals seen) :
    (calculateAny goals state).Reads reading count
      ((seen.foldr Steps.alternate [.finish]).take count) := by
  induction each with
  | nil => exact .empty
  | @cons goal steps goals seen first _ later =>
    have fewer : ((seen.foldr Steps.alternate [.finish]).take count).take count =
        (seen.foldr Steps.alternate [.finish]).take count := by rw [List.take_take, Nat.min_self]
    have turned := Plan.Reads.before fixed first later
    rw [Steps.take_alternate_congr rfl fewer] at turned
    exact turned

/-- Where any number of first steps is read of each goal, any number is read of the disjunction. -/
theorem exists_reads_calculateAny {count : Nat}
    (followed : ∀ goal ∈ goals, ∃ steps, (goal.calculate state).Reads reading count steps) :
    ∃ steps, (calculateAny goals state).Reads reading count steps := by
  induction goals with
  | nil => exact ⟨_, .empty⟩
  | cons goal goals later =>
    obtain ⟨ones, first⟩ := followed goal (List.mem_cons_self ..)
    obtain ⟨others, second⟩ :=
      later fun other member => followed other (List.mem_cons_of_mem _ member)
    exact ⟨_, .before fixed first second⟩

/-- The goals of a disjunction are the fronts of nested alternations. -/
theorem exists_nested
    (followed : ∀ goal ∈ goals, ∀ count, ∃ steps,
      (goal.calculate state).Reads reading count steps) :
    ∃ front whole : Nat → Steps.Sequence (State A), Steps.Sequence.Nested front whole ∧
      (∀ level count, (branch goals state level).Reads reading count ((front level).first count)) ∧
        ∀ level count, (calculateAny (goals.drop level) state).Reads reading count
          ((whole level).first count) := by
  have fronts : ∀ level, ∃ sequence : Steps.Sequence (State A), ∀ count,
      (branch goals state level).Reads reading count (sequence.first count) := by
    intro level
    apply Plan.Reads.exists_sequence
    intro count
    unfold branch
    cases there : goals[level]? with
    | none => exact ⟨_, .empty⟩
    | some goal => exact followed goal (List.mem_of_getElem? there) count
  have wholes : ∀ level, ∃ sequence : Steps.Sequence (State A), ∀ count,
      (calculateAny (goals.drop level) state).Reads reading count (sequence.first count) := by
    intro level
    apply Plan.Reads.exists_sequence
    exact fun count => exists_reads_calculateAny fixed fun goal member =>
      followed goal (List.mem_of_mem_drop member) count
  choose front readFront using fronts
  choose whole readWhole using wholes
  refine ⟨front, whole, fun level count => ?_, readFront, readWhole⟩
  have turned := Plan.Reads.before fixed (readFront level count) (readWhole (level + 1) count)
  exact (readWhole level count).unique (.of_alike (alike_turn fixed goals state level) (turned []))

end Reading

section Showing

variable {program : Program A δ} {heap : SearchHeap A δ} (closed : heap.Closed)
  {scope : List (Stream (State A))} (within : ∀ stream ∈ scope, stream.Within heap.cells.size)
  {goals : List (Goal A δ)} {state : State A}

include closed within

/-- What the search for a goal shows is read of it, whatever it may refer to. -/
theorem reads_of_shows {goal : Goal A δ} {count : Nat} {steps : Steps (State A)}
    (shows : (goal.calculate state).Shows program.routines heap scope count steps) :
    (goal.calculate state).Reads (.full program.routines heap) count steps :=
  (alike (Reading.limit_fixed program.routines heap) goal state).reads closed within shows

/-- A search of which the first steps of a sequence are read has the steps of the sequence. -/
theorem stepAt_iff {search : Search A δ} {sequence : Steps.Sequence (State A)}
    (reads : ∀ count,
      search.Reads (.full program.routines heap) count (sequence.first count))
    {index : Nat} {step : Step (State A)} :
    search.StepAt program.routines heap scope index step ↔ sequence.step? index = some step :=
  (Steps.Sequence.step?_eq_some_iff ((reads _).shows_iff closed within)).symm

/-- The steps of the fronts of nested alternations that are those of the goals of a disjunction have
places among the steps of the disjunction. Behind the last goal there is only the end. -/
theorem interleaves_of_nested {front whole : Nat → Steps.Sequence (State A)}
    (nested : Steps.Sequence.Nested front whole)
    (readFront : ∀ level count, (branch goals state level).Reads (.full program.routines heap)
      count ((front level).first count))
    (readWhole : ∀ level count, (calculateAny (goals.drop level) state).Reads
      (.full program.routines heap) count ((whole level).first count)) :
    Interleaves program heap scope goals state (Steps.Sequence.nestedPlace front whole) := by
  have stepFront {index inner : Nat} {goal : Goal A δ} (there : goals[index]? = some goal)
      {step : Step (State A)} :
      (goal.calculate state).StepAt program.routines heap scope inner step ↔
        (front index).step? inner = some step :=
    stepAt_iff closed within fun count => branch_eq there ▸ readFront index count
  have stepWhole {index : Nat} {step : Step (State A)} :
      ((disjunction goals).calculate state).StepAt program.routines heap scope index step ↔
        (whole 0).step? index = some step := stepAt_iff closed within (readWhole 0)
  have last {index : Nat} {step : Step (State A)} :
      (whole goals.length).step? index = some step ↔ index = 0 ∧ step = .finish := by
    have nothing := readWhole goals.length (index + 1)
    rw [List.drop_length] at nothing
    unfold Steps.Sequence.step?
    rw [nothing.unique .empty, List.take_succ_cons, List.take_nil]
    cases index with
    | zero => simp [eq_comm]
    | succ index => simp
  refine {
    order := Steps.Sequence.nestedPlace_strictMono front whole
    kept := ?kept
    source := ?source
    apart := ?apart
    ends := ?ends
    soon := Steps.Sequence.nestedPlace_le front whole }
  case kept =>
    intro index inner goal step there open_ found
    exact stepWhole.mpr (nested.step?_nestedPlace open_ ((stepFront there).mp found))
  case source =>
    intro index step open_ found
    rcases nested.exists_level open_ (stepWhole.mp found) goals.length with
      ⟨level, less, inner, same, found⟩ | ⟨inner, _, found⟩
    · have there := List.getElem?_eq_getElem less
      exact ⟨level, inner, _, same, there, (stepFront there).mpr found⟩
    · exact absurd (last.mp found).2 open_
  case apart =>
    intro level inner level' inner' goal goal' step step' open_ open' there found there' found' same
    have one := (stepFront there).mp found
    have other := (stepFront there').mp found'
    rcases Nat.lt_trichotomy level level' with less | rfl | more
    · exact absurd same (nested.nestedPlace_ne open_ open' less one other)
    · exact ⟨rfl, (Steps.Sequence.nestedPlace_strictMono front whole level).injective same⟩
    · exact absurd same.symm (nested.nestedPlace_ne open' open_ more other one)
  case ends =>
    have beyond : ∃ index, (whole goals.length).step? index = some .finish :=
      ⟨0, last.mpr ⟨rfl, rfl⟩⟩
    simp only [stepWhole]
    rw [nested.exists_finish_iff_fronts goals.length, and_iff_left beyond]
    constructor
    · intro all goal member
      obtain ⟨level, less, rfl⟩ := List.getElem_of_mem member
      obtain ⟨index, found⟩ := all level less
      exact ⟨index, (stepFront (List.getElem?_eq_getElem less)).mpr found⟩
    · intro all level less
      obtain ⟨index, found⟩ := all goals[level] (List.getElem_mem less)
      exact ⟨index, (stepFront (List.getElem?_eq_getElem less)).mp found⟩

end Showing

/-- A disjunction is fair to every one of its goals. From any closed heap on, as far as all of its
goals show steps the disjunction shows these in turn, each goal in turn with all goals after it. So
where its goals can be followed as far as is asked for, without a fault, the disjunction can be, and
every step of a goal has one place among its steps, no further on than is said by the place of the
step and the number of goals before, whatever the other goals do. -/
theorem branches_interleave (program : Program A δ) {heap : SearchHeap A δ}
    (closed : heap.Closed) {scope : List (Stream (State A))}
    (within : ∀ stream ∈ scope, stream.Within heap.cells.size) (goals : List (Goal A δ))
    (state : State A) :
    (∀ count seen, List.Forall₂ (fun goal steps => (goal.calculate state).Shows program.routines
        heap scope count steps) goals seen → ∀ steps,
          ((disjunction goals).calculate state).Shows program.routines heap scope count steps ↔
            steps = (seen.foldr Steps.alternate [.finish]).take count) ∧
    ((∀ goal ∈ goals, ∀ count, ∃ steps,
        (goal.calculate state).Shows program.routines heap scope count steps) →
      (∀ count, ∃ steps,
        ((disjunction goals).calculate state).Shows program.routines heap scope count steps) ∧
      ∃ place : Nat → Nat → Nat, Interleaves program heap scope goals state place) := by
  have fixed := Reading.limit_fixed program.routines heap
  refine ⟨fun count seen each steps => ?_, fun followed => ?_⟩
  · have reads := reads_calculateAny fixed
      (each.imp fun _ _ shows => reads_of_shows closed within shows)
    exact reads.shows_iff closed within
  · obtain ⟨front, whole, nested, readFront, readWhole⟩ :=
      exists_nested fixed fun goal member count =>
        (followed goal member count).imp fun _ shows => reads_of_shows closed within shows
    exact ⟨fun count => ⟨_, ((readWhole 0 count).shows_iff closed within).mpr rfl⟩, _,
      interleaves_of_nested closed within nested readFront readWhole⟩

/-- The search for a goal from acyclic bindings can be followed as far as is asked for, unless the
indices of new variables run out. -/
theorem exists_shows {program : Program A δ} {goal : Goal A δ} {start : State A}
    (acyclic : start.substitution.Acyclic) (room : ¬ Overflows program goal start) (count : Nat) :
    ∃ steps, (goal.calculate start).Shows program.routines .empty [] count steps := by
  obtain ⟨stream, read, live, _⟩ := exists_calculate goal acyclic room
  obtain ⟨steps, seen⟩ := live count
  refine ⟨steps, ?_⟩
  rw [Stream.plan_shows_iff Heap.closed_empty (List.forall_mem_nil _)]
  exact ⟨stream, read, seen⟩

/-- Behind a goal that ticks without end and one that has answers without end, the answer of a third
one comes after three steps at most. -/
theorem answer_behind_endless_branches :
    let program : Program Int64 Bool := fun name =>
      ⟨[], bif name then .disjunction [.succeed, .delay true] else .delay false⟩
    let goals : List (Goal Int64 Bool) := [.delay false, .delay true, .succeed]
    let start : State Int64 := ⟨IntMap.empty, 2⟩
    ∃ index ≤ 3, ((disjunction goals).calculate start).StepAt program.routines .empty [] index
      (.value start) := by
  intro program goals start
  have room : ∀ {other state}, Overflows program other state →
      other ∉ [.delay false, .delay true, .succeed, (program true).goal] := by
    intro other state full
    induction full with
    | here => simp [program, succeed]
    | fresh => simp [program, succeed]
    | conjunction => simp [program, succeed]
    | disjunction member inner later =>
      intro there
      apply later
      simp only [program, cond_true, List.mem_cons, Goal.disjunction.injEq, reduceCtorEq,
        List.not_mem_nil, or_false, false_or, succeed] at there
      subst there
      rcases List.mem_cons.mp member with rfl | member
      · simp [succeed]
      · simp [List.mem_singleton.mp member]
    | @delay name _ inner later =>
      intro there
      apply later
      cases name <;> simp [program]
  have followed : ∀ goal ∈ goals, ∀ count, ∃ steps,
      (goal.calculate start).Shows program.routines .empty [] count steps := by
    intro goal member count
    refine exists_shows Substitution.acyclic_empty (fun full => room full ?_) count
    exact List.mem_append_left [(program true).goal] member
  obtain ⟨_, place, interleaves⟩ :=
    (branches_interleave program Heap.closed_empty (List.forall_mem_nil _) goals start).2 followed
  have shown : ((succeed : Goal Int64 Bool).calculate start).StepAt program.routines .empty [] 0
      (.value start) := ⟨1, _, ⟨0, _, _, rfl, 0, _, rfl⟩, rfl⟩
  exact ⟨place 2 0, interleaves.soon 2 0,
    interleaves.kept rfl (Steps.value_ne_finish start) shown⟩

end Relational.Goal
