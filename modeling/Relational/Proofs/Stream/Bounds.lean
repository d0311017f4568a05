import Relational.Stream.Machine
import Relational.Stream.Steps

/-!
# Bounds on nesting

A bound only says when a run is given up as unfinished: a run that comes to any other end comes
to the same end, on the same heap, under every larger bound. This holds of forcing and calling
because it holds of everything that is built from them.
-/
namespace Relational

variable {α ε ρ γ γ' : Type}

namespace Run

/-- Unless it is unfinished, a run goes exactly as another one does. -/
def Refines (less more : Run α ε ρ γ) : Prop :=
  ∀ heap, (∃ after, less heap = .error .unfinished after) ∨ less heap = more heap

/-- Every run goes as it does. -/
theorem Refines.refl (run : Run α ε ρ γ) : run.Refines run := fun _ => .inr rfl

/-- Refinement is transitive. -/
theorem Refines.trans {first second third : Run α ε ρ γ} (before : first.Refines second)
    (after : second.Refines third) : first.Refines third := by
  intro heap
  rcases before heap with unfinished | same
  · exact .inl unfinished
  · rw [same]
    exact after heap

/-- A run that is not finished on any heap is refined by every run. -/
theorem Refines.of_unfinished (more : Run α ε ρ γ) : Run.unfinished.Refines more :=
  fun heap => .inl ⟨heap, rfl⟩

/-- A run goes on with the result of its first part, if that has one. -/
theorem bind_apply (run : Run α ε ρ γ) (next : γ → Run α ε ρ γ') (heap : Heap α ε ρ) :
    (run >>= next) heap = match run heap with
      | .ok result after => next result after
      | .error stop after => .error stop after := by
  show EStateM.bind run next heap = _
  unfold EStateM.bind
  cases run heap <;> rfl

/-- A run has a result where both its parts have one. -/
theorem bind_eq_ok {run : Run α ε ρ γ} {next : γ → Run α ε ρ γ'} {heap after : Heap α ε ρ}
    {result : γ'} :
    (run >>= next) heap = .ok result after ↔
      ∃ first middle, run heap = .ok first middle ∧ next first middle = .ok result after := by
  rw [bind_apply]
  cases ran : run heap with
  | ok first middle =>
    constructor
    · exact fun rest => ⟨first, middle, rfl, rest⟩
    · rintro ⟨_, _, same, rest⟩
      cases same
      exact rest
  | error stop middle =>
    constructor
    · exact fun impossible => nomatch impossible
    · rintro ⟨_, _, impossible, _⟩
      exact nomatch impossible

/-- A run is given up where its first part is, or its second part behind the first one. -/
theorem bind_eq_error {run : Run α ε ρ γ} {next : γ → Run α ε ρ γ'} {heap after : Heap α ε ρ}
    {stop : Stop} :
    (run >>= next) heap = .error stop after ↔ run heap = .error stop after ∨
      ∃ first middle, run heap = .ok first middle ∧ next first middle = .error stop after := by
  rw [bind_apply]
  cases ran : run heap with
  | ok first middle =>
    constructor
    · exact fun rest => .inr ⟨first, middle, rfl, rest⟩
    · rintro (impossible | ⟨_, _, same, rest⟩)
      · exact nomatch impossible
      · cases same
        exact rest
  | error other middle =>
    constructor
    · exact fun stopped => .inl (by cases stopped; rfl)
    · rintro (stopped | ⟨_, _, impossible, _⟩)
      · cases stopped
        rfl
      · exact nomatch impossible

/-- Runs refine each other where their parts do. -/
theorem Refines.bind {less more : Run α ε ρ γ} {next next' : γ → Run α ε ρ γ'}
    (first : less.Refines more) (second : ∀ result, (next result).Refines (next' result)) :
    (less >>= next).Refines (more >>= next') := by
  intro heap
  rw [bind_apply, bind_apply]
  rcases first heap with ⟨after, unfinished⟩ | same
  · rw [unfinished]
    exact .inl ⟨after, rfl⟩
  · rw [same]
    cases more heap with
    | ok result after => exact second result after
    | error stop after => exact .inr rfl

/-- A run with a result has it also where it is refined. -/
theorem Refines.ok {less more : Run α ε ρ γ} (refines : less.Refines more)
    {heap after : Heap α ε ρ} {result : γ} (ran : less heap = .ok result after) :
    more heap = .ok result after := by
  rcases refines heap with ⟨stopped, unfinished⟩ | same
  · rw [ran] at unfinished
    exact nomatch unfinished
  · exact same ▸ ran

end Run

section Forcing

variable {heap : Heap α ε ρ} {cell : CellId} {work : Work α ε ρ} (handlers : Handlers α ε ρ)

/-- Forcing where there is no cell gives the empty stream. -/
theorem forceCell_missing (missing : heap.cells[cell]? = none) :
    forceCell handlers cell heap = .ok .empty heap := by
  simp only [forceCell, missing]

/-- Forcing a cell whose content is known gives the content. -/
theorem forceCell_done {stream : Stream α} (found : heap.cells[cell]? = some ⟨work, .done stream⟩) :
    forceCell handlers cell heap = .ok stream heap := by
  simp only [forceCell, found]

/-- Forcing a cell whose work is under way is a fault. -/
theorem forceCell_running (found : heap.cells[cell]? = some ⟨work, .running⟩) :
    forceCell handlers cell heap = .error (.fault .reentrant) heap := by
  simp only [forceCell, found]

/-- Forcing a cell whose work has not been started does the work and stores its result. -/
theorem forceCell_waiting (found : heap.cells[cell]? = some ⟨work, .waiting⟩) :
    forceCell handlers cell heap = (do
      Run.setStatus cell .running
      Run.record (.started cell)
      let stream ← work.run handlers
      Run.setStatus cell (.done stream)
      pure stream : Run α ε ρ (Stream α)) heap := by
  simp only [forceCell, found]

end Forcing

namespace Handlers

/-- Forcing and calling go as they do with other handlers, unless they are unfinished. -/
structure Refines (less more : Handlers α ε ρ) : Prop where
  /-- Forcing does. -/
  force : ∀ cell, (less.force cell).Refines (more.force cell)
  /-- Calling does. -/
  call : ∀ routine, (less.call routine).Refines (more.call routine)

/-- Handlers go as they do. -/
theorem Refines.refl (handlers : Handlers α ε ρ) : handlers.Refines handlers :=
  ⟨fun _ => .refl _, fun _ => .refl _⟩

/-- Refinement of handlers is transitive. -/
theorem Refines.trans {first second third : Handlers α ε ρ} (before : first.Refines second)
    (after : second.Refines third) : first.Refines third :=
  ⟨fun cell => (before.force cell).trans (after.force cell),
    fun routine => (before.call routine).trans (after.call routine)⟩

/-- A run that only uses handlers by forcing and calling. -/
structure Steady (run : Handlers α ε ρ → Run α ε ρ γ) : Prop where
  /-- It goes on as before where the handlers do. -/
  refines : ∀ {less more : Handlers α ε ρ}, less.Refines more → (run less).Refines (run more)

/-- A run without handlers. -/
theorem Steady.constant (run : Run α ε ρ γ) : Steady fun _ : Handlers α ε ρ => run :=
  ⟨fun _ => .refl run⟩

/-- Forcing. -/
theorem Steady.force (cell : CellId) :
    Steady fun handlers : Handlers α ε ρ => handlers.force cell :=
  ⟨fun refines => refines.force cell⟩

/-- Calling. -/
theorem Steady.call (routine : ρ) :
    Steady fun handlers : Handlers α ε ρ => handlers.call routine :=
  ⟨fun refines => refines.call routine⟩

/-- One run after another. -/
theorem Steady.bind {run : Handlers α ε ρ → Run α ε ρ γ}
    {next : Handlers α ε ρ → γ → Run α ε ρ γ'} (first : Steady run)
    (second : ∀ result, Steady fun handlers => next handlers result) :
    Steady fun handlers => run handlers >>= next handlers :=
  ⟨fun below => (first.refines below).bind fun result => (second result).refines below⟩

/-- Merging. -/
theorem Steady.mergeWith (first : Stream α) (second : CellId) :
    Steady fun handlers : Handlers α ε ρ => first.mergeWith handlers second := by
  cases first with
  | empty => exact .force second
  | cons head tail => exact .constant _
  | suspended cell => exact .constant _

/-- Merging two streams. -/
theorem Steady.merge (first second : Stream α) :
    Steady fun handlers : Handlers α ε ρ => first.merge handlers second :=
  (Steady.constant _).bind fun other => .mergeWith first other

/-- Mapping. -/
theorem Steady.mapcatWith (body : α → Plan α ε ρ) (scope : List (Stream α))
    {apply : Handlers α ε ρ → α → Run α ε ρ (Stream α)}
    (applied : ∀ value, Steady fun handlers => apply handlers value) (source : Stream α) :
    Steady fun handlers => source.mapcatWith handlers body scope (apply handlers) := by
  cases source with
  | empty => exact .constant _
  | cons head tail =>
    refine (applied head).bind fun first => (Steady.constant _).bind fun rest => ?_
    cases first with
    | empty => exact .constant _
    | cons => exact .mergeWith _ _
    | suspended => exact .mergeWith _ _
  | suspended cell => exact .constant _

/-- Taking a step. -/
theorem Steady.step (stream : Stream α) :
    Steady fun handlers : Handlers α ε ρ => stream.step handlers := by
  cases stream with
  | empty => exact .constant _
  | cons head tail => exact .force tail
  | suspended cell => exact .force cell

/-- Carrying out a plan. -/
theorem Steady.plan (plan : Plan α ε ρ) (scope : List (Stream α)) :
    Steady fun handlers => plan.eval handlers scope := by
  induction plan generalizing scope with
  | empty | unit | lazy | cons | suspend | ref | knot | fail => exact .constant _
  | ready content steady => exact (steady scope).bind fun _ => .constant _
  | merge left right steadyLeft steadyRight =>
    exact (steadyLeft scope).bind fun first => (steadyRight scope).bind fun second =>
      .merge first second
  | mapcat source body steadySource steadyBody =>
    exact (steadySource scope).bind fun stream =>
      .mapcatWith body scope (fun value => steadyBody value scope) stream
  | share stream body steadyStream steadyBody =>
    exact (steadyStream scope).bind fun shared => steadyBody (shared :: scope)
  | force stream steady => exact (steady scope).bind fun made => .step made
  | report event next steady => exact (Steady.constant _).bind fun _ => steady scope
  | computed plan steady => exact steady () scope
  | call routine => exact .call routine

/-- Doing the work of a cell. -/
theorem Steady.work (work : Work α ε ρ) : Steady fun handlers => work.run handlers := by
  cases work with
  | known | pull => exact .constant _
  | plan content scope => exact .plan content scope
  | merge first second => exact (Steady.force first).bind fun stream => .mergeWith stream second
  | mapcat source body scope =>
    exact (Steady.force source).bind fun stream =>
      .mapcatWith body scope (fun value => .plan (body value) scope) stream

/-- Forcing a cell by doing its work. -/
theorem Steady.forceCell (cell : CellId) :
    Steady fun handlers : Handlers α ε ρ => Relational.forceCell handlers cell := by
  refine ⟨fun {less more} below heap => ?_⟩
  rcases found : heap.cells[cell]? with _ | ⟨work, stream | _ | stream⟩
  · rw [forceCell_missing less found, forceCell_missing more found]
    exact .inr rfl
  · rw [forceCell_waiting less found, forceCell_waiting more found]
    have steady : Steady fun handlers : Handlers α ε ρ => (do
        Run.setStatus cell .running
        Run.record (.started cell)
        let stream ← work.run handlers
        Run.setStatus cell (.done stream)
        pure stream : Run α ε ρ (Stream α)) :=
      (Steady.constant _).bind fun _ => (Steady.constant _).bind fun _ =>
        (Steady.work work).bind fun _ => .constant _
    exact steady.refines below heap
  · rw [forceCell_running less found, forceCell_running more found]
    exact .inr rfl
  · rw [forceCell_done less found, forceCell_done more found]
    exact .inr rfl

/-- Looking for the next value. -/
theorem Steady.uncons? (bound : Nat) (stream : Stream α) :
    Steady fun handlers : Handlers α ε ρ => stream.uncons? handlers bound := by
  induction bound generalizing stream with
  | zero => cases stream <;> exact .constant _
  | succ bound steady =>
    cases stream with
    | empty => exact .constant _
    | cons head tail => exact .constant _
    | suspended cell => exact (Steady.force cell).bind fun content => steady content

/-- Looking at the first steps. Behind the first step the content of a cell is looked at. -/
theorem Steady.observe (count : Nat) (stream : Stream α) :
    Steady fun handlers : Handlers α ε ρ => stream.observe handlers count := by
  induction count generalizing stream with
  | zero => cases stream <;> exact .constant _
  | succ count steady =>
    have behind (first : Step α) (cell : CellId) : Steady fun handlers : Handlers α ε ρ =>
        handlers.force cell >>= fun stream =>
          stream.observe handlers count >>= fun steps => pure (first :: steps) :=
      (Steady.force cell).bind fun content => (steady content).bind fun _ => .constant _
    cases stream with
    | empty => cases count <;> exact .constant _
    | cons head tail =>
      cases count with
      | zero => exact .constant _
      | succ count => exact behind (.value head) tail
    | suspended cell =>
      cases count with
      | zero => exact .constant _
      | succ count => exact behind .tick cell

end Handlers

variable (routines : ρ → Plan α ε ρ)

/-- One level more of nesting changes nothing but where a run is unfinished. -/
theorem handlers_succ (bound : Nat) :
    (handlers routines bound).Refines (handlers routines (bound + 1)) := by
  induction bound with
  | zero => exact ⟨fun _ => .of_unfinished _, fun _ => .of_unfinished _⟩
  | succ bound refines =>
    exact ⟨fun cell => (Handlers.Steady.forceCell cell).refines refines,
      fun routine => (Handlers.Steady.plan (routines routine) []).refines refines⟩

/-- More nesting changes nothing but where a run is unfinished. -/
theorem handlers_mono {low high : Nat} (le : low ≤ high) :
    (handlers routines low).Refines (handlers routines high) := by
  induction le with
  | refl => exact .refl _
  | step _ refines => exact refines.trans (handlers_succ routines _)

end Relational
