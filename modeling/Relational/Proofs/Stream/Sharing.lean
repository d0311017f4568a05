import Mathlib.Data.List.GetD
import Relational.Proofs.Stream.Bounds
import Relational.Proofs.Stream.Closed

/-!
# Sharing shows nothing

A run on a heap makes the stream that a reading without sharing makes. Both directions are kept
together: a run that has a result has the one that is read, and where something can be read to
some depth there is a bound under which the run has a result. In the second direction the work
that is under way has to be out of the way: nothing can be read to that depth of a cell whose
work is under way, or else that cell could be asked for and the run would be at fault.
-/
namespace Relational

variable {α ε ρ γ γ' δ δ' : Type}

/-- What is needed to compare runs with readings: runs under growing bounds, and a reading that
knows some of what can be known. -/
structure Comparison (α ε ρ : Type) where
  /-- The plans of routines. -/
  routines : ρ → Plan α ε ρ
  /-- The heap in whose cells everything starts. -/
  base : Heap α ε ρ
  /-- What runs use, under growing bounds. -/
  chain : Nat → Handlers α ε ρ
  /-- What readings use. -/
  reading : Reading α ε ρ
  /-- A larger bound only finishes what was unfinished. -/
  rising : ∀ {low high : Nat}, low ≤ high → (chain low).Refines (chain high)
  /-- The reading knows nothing that cannot be known. -/
  below : reading.Below (.limit (readings routines base))

/-- Forcing a cell that is waiting comes to what its work comes to. -/
theorem forceCell_waiting_eq_ok {handlers : Handlers α ε ρ} {heap after : Heap α ε ρ}
    {cell : CellId} {work : Work α ε ρ} {result : Stream α}
    (found : heap.cells[cell]? = some ⟨work, .waiting⟩) :
    forceCell handlers cell heap = .ok result after ↔
      ∃ finished, work.run handlers (heap.start cell) = .ok result finished ∧
        finished.mark cell (.done result) = after := by
  rw [forceCell_waiting handlers found]
  show (work.run handlers >>= fun stream => do
    Run.setStatus cell (.done stream)
    pure stream : Run α ε ρ (Stream α)) (heap.start cell) = .ok result after ↔ _
  rw [Run.bind_eq_ok]
  constructor
  · rintro ⟨stream, finished, ran, stored⟩
    cases stored
    exact ⟨finished, ran, rfl⟩
  · rintro ⟨finished, ran, rfl⟩
    exact ⟨result, finished, ran, rfl⟩

namespace Comparison

variable (comparison : Comparison α ε ρ)

/-- The reading that knows all that can be known. -/
noncomputable def limit : Reading α ε ρ := .limit (readings comparison.routines comparison.base)

/-- All that can be known follows recipes and routines to the end. -/
theorem fixed : Reading.Fixed comparison.routines comparison.base comparison.limit :=
  Reading.limit_fixed comparison.routines comparison.base

/-- The heap realizes recipes. -/
abbrev Realizes (heap : Heap α ε ρ) (recipe : CellId → Recipe α ε ρ) : Prop :=
  Heap.Realizes comparison.limit comparison.base heap recipe

/-- The reading knows nothing of what is under way. -/
def Quiet (heap : Heap α ε ρ) (recipe : CellId → Recipe α ε ρ) : Prop :=
  ∀ cell, heap.Running cell → comparison.reading.force (recipe cell) = none

/-- Nothing more is under way later. -/
theorem Quiet.grows {comparison : Comparison α ε ρ} {before after : Heap α ε ρ}
    {recipe recipe' : CellId → Recipe α ε ρ} (quiet : comparison.Quiet before recipe)
    (grows : before.Grows recipe after recipe') : comparison.Quiet after recipe' := by
  intro cell running
  have running := grows.running.mp running
  have ⟨_, found⟩ := running
  rw [grows.keep cell (Heap.lt_size_of_getElem? found)]
  exact quiet cell running

/-- How results of runs and of readings belong together. -/
abbrev Agreement (α ε ρ γ γ' : Type) : Type :=
  Heap α ε ρ → (CellId → Recipe α ε ρ) → γ → γ' → Prop

/-- A stream belongs to the stream with a recipe in place of each of its cells. -/
def ofStream : Agreement α ε ρ (Stream α) (Unshared α ε ρ) := fun heap recipe stream made =>
  stream.Within heap.cells.size ∧ made = stream.unshared recipe

/-- A cell belongs to its recipe. -/
def ofCell : Agreement α ε ρ CellId (Recipe α ε ρ) := fun heap recipe cell made =>
  cell < heap.cells.size ∧ made = recipe cell

/-- A run does what a reading reads. -/
structure Implements (heap : Heap α ε ρ) (recipe : CellId → Recipe α ε ρ)
    (run : Handlers α ε ρ → Run α ε ρ γ) (value : Reading α ε ρ → Option γ')
    (agree : Agreement α ε ρ γ γ') : Prop where
  /-- A larger bound changes no result. -/
  steady : ∀ {low high : Nat} {result : γ} {after : Heap α ε ρ}, low ≤ high →
    run (comparison.chain low) heap = .ok result after →
      run (comparison.chain high) heap = .ok result after
  /-- A result of the run is what can be read. -/
  sound : ∀ {bound : Nat} {result : γ} {after : Heap α ε ρ},
    run (comparison.chain bound) heap = .ok result after →
      ∃ recipe' made, value comparison.limit = some made ∧ heap.Grows recipe after recipe' ∧
        comparison.Realizes after recipe' ∧ agree after recipe' result made
  /-- Where something is read the run has a result. -/
  complete : ∀ {made : γ'}, comparison.Quiet heap recipe →
    value comparison.reading = some made → value comparison.limit = some made ∧
      ∃ bound result after, run (comparison.chain bound) heap = .ok result after

variable {comparison} {heap : Heap α ε ρ} {recipe : CellId → Recipe α ε ρ}

/-- A value before a cell belongs to the value before the cell's recipe. -/
theorem ofCell_cons (head : α) {cell : CellId} {made : Recipe α ε ρ}
    (agrees : ofCell heap recipe cell made) :
    ofStream heap recipe (.cons head cell) (.cons head made) :=
  ⟨agrees.1, congrArg (Unshared.cons head) agrees.2⟩

/-- The suspension of a cell belongs to the suspension of its recipe. -/
theorem ofCell_suspended {cell : CellId} {made : Recipe α ε ρ}
    (agrees : ofCell heap recipe cell made) :
    ofStream heap recipe (.suspended cell) (.suspended made) :=
  ⟨agrees.1, congrArg Unshared.suspended agrees.2⟩

/-- It only matters what a run does on the heap. -/
theorem Implements.congr {run run' : Handlers α ε ρ → Run α ε ρ γ}
    {value : Reading α ε ρ → Option γ'} {agree : Agreement α ε ρ γ γ'}
    (implemented : comparison.Implements heap recipe run value agree)
    (same : ∀ handlers, run' handlers heap = run handlers heap) :
    comparison.Implements heap recipe run' value agree where
  steady le ran := by
    rw [same] at ran ⊢
    exact implemented.steady le ran
  sound ran := by
    rw [same] at ran
    exact implemented.sound ran
  complete quiet found := by
    obtain ⟨known, bound, result, after, ran⟩ := implemented.complete quiet found
    exact ⟨known, bound, result, after, (same _).trans ran⟩

/-- A run without handlers does what is read without a reading. -/
theorem Implements.leaf {run : Run α ε ρ γ} {result : γ} {made : γ'} {after : Heap α ε ρ}
    {recipe' : CellId → Recipe α ε ρ} {agree : Agreement α ε ρ γ γ'}
    (ran : run heap = .ok result after) (grows : heap.Grows recipe after recipe')
    (realizes : comparison.Realizes after recipe') (agrees : agree after recipe' result made) :
    comparison.Implements heap recipe (fun _ => run) (fun _ => some made) agree where
  steady _ ran := ran
  sound := by
    intro _ _ _ ran'
    rw [ran] at ran'
    cases ran'
    exact ⟨recipe', made, rfl, grows, realizes, agrees⟩
  complete _ found := ⟨found, 0, result, after, ran⟩

/-- A run that is given up does what is read where nothing is. -/
theorem Implements.fault (fault : Fault) {agree : Agreement α ε ρ γ γ'} :
    comparison.Implements heap recipe (fun _ => Run.fault fault) (fun _ => none) agree where
  steady _ ran := ran
  sound ran := nomatch ran
  complete _ found := nomatch found

/-- Runs one after another do what is read one after another. -/
theorem Implements.bind {run : Handlers α ε ρ → Run α ε ρ γ}
    {value : Reading α ε ρ → Option γ'} {agree : Agreement α ε ρ γ γ'}
    {next : Handlers α ε ρ → γ → Run α ε ρ δ} {next' : Reading α ε ρ → γ' → Option δ'}
    {agree' : Agreement α ε ρ δ δ'} (first : comparison.Implements heap recipe run value agree)
    (second : ∀ {after : Heap α ε ρ} {recipe' : CellId → Recipe α ε ρ} (result : γ) (made : γ'),
      heap.Grows recipe after recipe' → comparison.Realizes after recipe' →
        agree after recipe' result made →
          comparison.Implements after recipe' (fun handlers => next handlers result)
            (fun reading => next' reading made) agree') :
    comparison.Implements heap recipe (fun handlers => run handlers >>= next handlers)
      (fun reading => value reading >>= next' reading) agree' where
  steady := by
    intro low high result after le ran
    obtain ⟨middle, between, before, ran⟩ := Run.bind_eq_ok.mp ran
    obtain ⟨_, made, _, grows, realizes, agrees⟩ := first.sound before
    exact Run.bind_eq_ok.mpr ⟨middle, between, first.steady le before,
      (second middle made grows realizes agrees).steady le ran⟩
  sound := by
    intro bound result after ran
    obtain ⟨middle, between, before, ran⟩ := Run.bind_eq_ok.mp ran
    obtain ⟨recipe', made, found, grows, realizes, agrees⟩ := first.sound before
    obtain ⟨recipe'', made', found', grows', realizes', agrees'⟩ :=
      (second middle made grows realizes agrees).sound ran
    exact ⟨recipe'', made', Option.bind_eq_some_iff.mpr ⟨made, found, found'⟩, grows.trans grows',
      realizes', agrees'⟩
  complete := by
    intro made quiet found
    obtain ⟨middle', before', found⟩ := Option.bind_eq_some_iff.mp found
    obtain ⟨known, low, middle, between, before⟩ := first.complete quiet before'
    obtain ⟨recipe', made', known', grows, realizes, agrees⟩ := first.sound before
    have same : made' = middle' := Option.some.inj (known'.symm.trans known)
    rw [same] at agrees
    have rest := second middle middle' grows realizes agrees
    obtain ⟨known'', high, result, after, ran⟩ := rest.complete (quiet.grows grows) found
    refine ⟨Option.bind_eq_some_iff.mpr ⟨middle', known, known''⟩, max low high, result, after, ?_⟩
    exact Run.bind_eq_ok.mpr ⟨middle, between, first.steady (Nat.le_max_left _ _) before,
      rest.steady (Nat.le_max_right _ _) ran⟩

/-- A result that is only put into another form is the one read, put into that form. -/
theorem Implements.map {run : Handlers α ε ρ → Run α ε ρ γ}
    {value : Reading α ε ρ → Option γ'} {agree : Agreement α ε ρ γ γ'}
    {agree' : Agreement α ε ρ δ δ'} (first : comparison.Implements heap recipe run value agree)
    (form : γ → δ) (form' : γ' → δ')
    (formed : ∀ {after : Heap α ε ρ} {recipe' : CellId → Recipe α ε ρ} {result : γ} {made : γ'},
      heap.Grows recipe after recipe' → agree after recipe' result made →
        agree' after recipe' (form result) (form' made)) :
    comparison.Implements heap recipe
      (fun handlers => run handlers >>= fun result => pure (form result))
      (fun reading => value reading >>= fun made => some (form' made)) agree' :=
  first.bind fun _ _ grows realizes agrees =>
    .leaf rfl (.refl _ _) realizes (formed grows agrees)

/-- Recording what happens changes nothing. -/
theorem Implements.report (realizes : comparison.Realizes heap recipe) (events : List ε) :
    comparison.Implements heap recipe (fun _ => Run.report events) (fun _ => some ())
      fun _ _ _ _ => True := by
  have recorded : ∀ (heap : Heap α ε ρ), ∃ trace,
      Run.report events heap = .ok () (heap.withTrace trace) := by
    induction events with
    | nil => exact fun heap => ⟨heap.trace, rfl⟩
    | cons event events recorded =>
      intro heap
      obtain ⟨trace, same⟩ := recorded (heap.withTrace (heap.trace.push (.reported event)))
      exact ⟨trace, same⟩
  obtain ⟨trace, ran⟩ := recorded heap
  exact .leaf ran (.withTrace heap recipe trace) (realizes.withTrace trace) trivial

/-- A new cell has its recipe. -/
theorem Implements.allocate {cell : Cell α ε ρ} {new : Recipe α ε ρ}
    (idle : cell.status ≠ .running)
    (realizes : comparison.Realizes (heap.push cell) (heap.extend recipe new)) :
    comparison.Implements heap recipe (fun _ => Run.allocate cell) (fun _ => some new) ofCell := by
  have made : Run.allocate cell heap = .ok heap.cells.size (heap.push cell) := rfl
  refine .leaf made (.push recipe new idle) realizes ⟨?_, ?_⟩
  · rw [Heap.size_push]
    exact Nat.lt_succ_self _
  · exact (Heap.extend_self _ _ _).symm

/-- A cell for work to be done later has the work as its recipe. -/
theorem Implements.defer (realizes : comparison.Realizes heap recipe) {work : Work α ε ρ}
    (within : work.Within heap.cells.size) :
    comparison.Implements heap recipe (fun _ => Run.defer work)
      (fun _ => some (work.recipe recipe)) ofCell := by
  have same := Heap.extend_of_lt heap recipe (work.recipe recipe)
  have idle : (Status.waiting : Status α) ≠ .running := fun impossible => nomatch impossible
  apply Implements.allocate idle
  apply realizes.push
  · exact within.mono (Nat.le_succ _)
  · exact fun _ impossible => nomatch impossible
  · intro _
    rw [Work.unfold_recipe]
    exact (within.recipe_eq same).symm
  · exact fun _ impossible => nomatch impossible

/-- A cell for a known stream has the stream as its recipe. -/
theorem Implements.known (realizes : comparison.Realizes heap recipe) {stream : Stream α}
    (within : stream.Within heap.cells.size) :
    comparison.Implements heap recipe (fun _ => Run.known stream)
      (fun _ => some (.known (stream.unshared recipe))) ofCell := by
  have same := Heap.extend_of_lt heap recipe (.known (stream.unshared recipe))
  have idle : Status.done stream ≠ .running := fun impossible => nomatch impossible
  apply Implements.allocate idle
  apply realizes.push
  · exact within.mono (Nat.le_succ _)
  · rintro _ ⟨⟩
    exact within.mono (Nat.le_succ _)
  · exact fun impossible => nomatch impossible
  · rintro _ ⟨⟩
    rw [within.unshared_eq same]
    exact comparison.fixed.force _

/-- Runs may force cells and call routines. -/
structure Executes (comparison : Comparison α ε ρ) : Prop where
  /-- Forcing a cell makes what its recipe makes. -/
  force : ∀ {heap : Heap α ε ρ} {recipe : CellId → Recipe α ε ρ} {cell : CellId},
    comparison.Realizes heap recipe → cell < heap.cells.size →
      comparison.Implements heap recipe (fun handlers => handlers.force cell)
        (fun reading => reading.force (recipe cell)) ofStream
  /-- Calling a routine makes what the routine makes. -/
  call : ∀ {heap : Heap α ε ρ} {recipe : CellId → Recipe α ε ρ} (routine : ρ),
    comparison.Realizes heap recipe →
      comparison.Implements heap recipe (fun handlers => handlers.call routine)
        (fun reading => reading.call routine) ofStream

/-- A stream that is there is made. -/
theorem Implements.stream (realizes : comparison.Realizes heap recipe) {stream : Stream α}
    (within : stream.Within heap.cells.size) :
    comparison.Implements heap recipe (fun _ => pure stream)
      (fun _ => some (stream.unshared recipe)) ofStream :=
  .leaf rfl (.refl _ _) realizes ⟨within, rfl⟩

/-- A value before work to be done later is made. -/
theorem Implements.cons (realizes : comparison.Realizes heap recipe) (head : α)
    {work : Work α ε ρ} (within : work.Within heap.cells.size) :
    comparison.Implements heap recipe
      (fun _ => Run.defer work >>= fun rest => pure (Stream.cons head rest))
      (fun _ => some (.cons head (work.recipe recipe))) ofStream := by
  have made := (Implements.defer realizes within).map (Stream.cons head) (Unshared.cons head)
    fun _ => ofCell_cons head
  exact made

/-- A suspension of work to be done later is made. -/
theorem Implements.suspended (realizes : comparison.Realizes heap recipe) {work : Work α ε ρ}
    (within : work.Within heap.cells.size) :
    comparison.Implements heap recipe
      (fun _ => Run.defer work >>= fun rest => pure (Stream.suspended rest))
      (fun _ => some (.suspended (work.recipe recipe))) ofStream := by
  have made := (Implements.defer realizes within).map Stream.suspended Unshared.suspended
    fun _ => ofCell_suspended
  exact made

/-- The items of a source are made. -/
theorem Implements.pull (realizes : comparison.Realizes heap recipe) (source : Source α ε)
    (position : Nat) :
    comparison.Implements heap recipe (fun _ => source.pull position)
      (fun _ => some (source.read position)) ofStream := by
  show comparison.Implements heap recipe (fun _ => source.pull position)
    (fun _ => some () >>= fun _ => some (source.read position)) ofStream
  unfold Source.pull
  refine (Implements.report realizes _).bind fun {after _} _ _ _ realizes _ => ?_
  unfold Source.read
  cases source.item position with
  | none => exact .stream realizes trivial
  | some item =>
    have within : (Work.pull source (position + 1) : Work α ε ρ).Within after.cells.size := trivial
    exact .cons realizes item within

/-- A suspension whose content may refer to it is made. -/
theorem Implements.knot (realizes : comparison.Realizes heap recipe) (content : Plan α ε ρ)
    {scope : List (Stream α)} (withinScope : ∀ stream ∈ scope, stream.Within heap.cells.size) :
    comparison.Implements heap recipe
      (fun handlers => (Plan.knot content).eval handlers scope)
      (fun _ => some (.suspended (.knot content (scope.map (Stream.unshared recipe)))))
      ofStream := by
  let self : Recipe α ε ρ := .knot content (scope.map (Stream.unshared recipe))
  let work : Work α ε ρ := .plan content (.suspended heap.cells.size :: scope)
  have new : heap.extend recipe self heap.cells.size = self := Heap.extend_self heap recipe self
  have same := Heap.extend_of_lt heap recipe self
  have within : work.Within (heap.cells.size + 1) := by
    intro stream member
    rcases List.mem_cons.mp member with rfl | member
    · exact Nat.lt_succ_self _
    · exact (withinScope stream member).mono (Nat.le_succ _)
  have opened : self.unfold comparison.base = work.recipe (heap.extend recipe self) := by
    show Recipe.plan content (.suspended self :: scope.map (Stream.unshared recipe)) =
      .plan content (.suspended (heap.extend recipe self heap.cells.size) ::
        scope.map (Stream.unshared (heap.extend recipe self)))
    rw [new, unshared_scope_eq same withinScope]
  have more : comparison.Realizes (heap.push ⟨work, .waiting⟩) (heap.extend recipe self) :=
    realizes.push within (fun _ impossible => nomatch impossible) (fun _ => opened)
      fun _ impossible => nomatch impossible
  have grows : heap.Grows recipe (heap.push ⟨work, .waiting⟩) (heap.extend recipe self) :=
    .push recipe self fun impossible => nomatch impossible
  have ran : Run.defer work heap = .ok heap.cells.size (heap.push ⟨work, .waiting⟩) := rfl
  have deferred : comparison.Implements heap recipe (fun _ => Run.defer work)
      (fun _ => some self) ofCell := by
    refine .leaf ran grows more ⟨?_, new.symm⟩
    rw [Heap.size_push]
    exact Nat.lt_succ_self _
  have made := deferred.map Stream.suspended Unshared.suspended fun _ => ofCell_suspended
  exact made.congr fun _ => rfl

section Executing

variable (executes : comparison.Executes)

include executes

/-- Merging makes a merge. -/
theorem Executes.mergeWith (realizes : comparison.Realizes heap recipe) {first : Stream α}
    {second : CellId} (withinFirst : first.Within heap.cells.size)
    (withinSecond : second < heap.cells.size) :
    comparison.Implements heap recipe (fun handlers => first.mergeWith handlers second)
      (fun reading => (first.unshared recipe).mergeWith reading (recipe second)) ofStream := by
  cases first with
  | empty => exact executes.force realizes withinSecond
  | cons head tail =>
    have within : (Work.merge second tail : Work α ε ρ).Within heap.cells.size :=
      ⟨withinSecond, withinFirst⟩
    exact .cons realizes head within
  | suspended cell =>
    have within : (Work.merge second cell : Work α ε ρ).Within heap.cells.size :=
      ⟨withinSecond, withinFirst⟩
    exact .suspended realizes within

/-- Merging two streams makes a merge with a known stream. -/
theorem Executes.merge (realizes : comparison.Realizes heap recipe) {first second : Stream α}
    (withinFirst : first.Within heap.cells.size) (withinSecond : second.Within heap.cells.size) :
    comparison.Implements heap recipe (fun handlers => first.merge handlers second)
      (fun reading => (first.unshared recipe).mergeWith reading
        (.known (second.unshared recipe))) ofStream := by
  have merged : comparison.Implements heap recipe
      (fun handlers => Run.known second >>= fun other => first.mergeWith handlers other)
      (fun reading => some (.known (second.unshared recipe)) >>= fun other =>
        (first.unshared recipe).mergeWith reading other) ofStream := by
    refine (Implements.known realizes withinSecond).bind fun other made grows realizes agrees => ?_
    obtain ⟨there, rfl⟩ := agrees
    rw [← withinFirst.unshared_eq grows.keep]
    exact executes.mergeWith realizes (withinFirst.mono grows.size) there
  exact merged

/-- Taking a step makes what comes next. -/
theorem Executes.step (realizes : comparison.Realizes heap recipe) {stream : Stream α}
    (within : stream.Within heap.cells.size) :
    comparison.Implements heap recipe (fun handlers => stream.step handlers)
      (fun reading => (stream.unshared recipe).step reading) ofStream := by
  cases stream with
  | empty => exact .stream realizes trivial
  | cons head tail => exact executes.force realizes within
  | suspended cell => exact executes.force realizes within

/-- Mapping makes a flat map, where applying the body makes what is read of it. A value of the
body's stream hands over to a merge with what is deferred. -/
theorem Executes.mapcatWith (realizes : comparison.Realizes heap recipe) (body : α → Plan α ε ρ)
    {scope : List (Stream α)} (withinScope : ∀ stream ∈ scope, stream.Within heap.cells.size)
    {apply : Handlers α ε ρ → α → Run α ε ρ (Stream α)}
    {apply' : Reading α ε ρ → α → Option (Unshared α ε ρ)}
    (applied : ∀ value, comparison.Implements heap recipe (fun handlers => apply handlers value)
      (fun reading => apply' reading value) ofStream)
    {source : Stream α} (within : source.Within heap.cells.size) :
    comparison.Implements heap recipe
      (fun handlers => source.mapcatWith handlers body scope (apply handlers))
      (fun reading => (source.unshared recipe).mapcatWith reading body
        (scope.map (Stream.unshared recipe)) (apply' reading)) ofStream := by
  cases source with
  | empty => exact .stream realizes trivial
  | suspended cell =>
    have withinRest : (Work.mapcat cell body scope).Within heap.cells.size :=
      ⟨within, withinScope⟩
    exact .suspended realizes withinRest
  | cons head tail =>
    refine (applied head).bind fun {after recipe'} first made grows realizes agrees => ?_
    obtain ⟨withinFirst, rfl⟩ := agrees
    have withinRest : (Work.mapcat tail body scope).Within heap.cells.size :=
      ⟨within, withinScope⟩
    have rest : (Work.mapcat tail body scope).recipe recipe' =
        (Work.mapcat tail body scope).recipe recipe :=
      withinRest.recipe_eq grows.keep
    have merged : comparison.Implements after recipe'
        (fun handlers => Run.defer (.mapcat tail body scope) >>= fun rest =>
          first.mergeWith handlers rest)
        (fun reading => (first.unshared recipe').mergeWith reading
          ((Work.mapcat tail body scope).recipe recipe)) ofStream := by
      rw [← rest]
      have deferred : comparison.Implements after recipe'
          (fun handlers => Run.defer (.mapcat tail body scope) >>= fun rest =>
            first.mergeWith handlers rest)
          (fun reading => some ((Work.mapcat tail body scope).recipe recipe') >>= fun rest =>
            (first.unshared recipe').mergeWith reading rest) ofStream := by
        refine (Implements.defer realizes (withinRest.mono grows.size)).bind ?_
        intro final recipe'' rest made grows' realizes' agrees
        obtain ⟨there, rfl⟩ := agrees
        rw [← withinFirst.unshared_eq grows'.keep]
        exact executes.mergeWith realizes' (withinFirst.mono grows'.size) there
      exact deferred
    cases first with
    | empty =>
      have suspended := Implements.suspended realizes (withinRest.mono grows.size)
      rw [rest] at suspended
      exact suspended
    | cons => exact merged
    | suspended => exact merged

/-- Carrying out a plan makes what is read of it. -/
theorem Executes.plan (realizes : comparison.Realizes heap recipe) (plan : Plan α ε ρ)
    {scope : List (Stream α)} (withinScope : ∀ stream ∈ scope, stream.Within heap.cells.size) :
    comparison.Implements heap recipe (fun handlers => plan.eval handlers scope)
      (fun reading => plan.read reading (scope.map (Stream.unshared recipe))) ofStream := by
  induction plan generalizing heap recipe scope with
  | empty => exact .stream realizes trivial
  | unit value =>
    have known := Implements.known realizes (show (Stream.empty : Stream α).Within _ from trivial)
    have made := known.map (Stream.cons value) (Unshared.cons value) fun _ => ofCell_cons value
    exact made
  | lazy source => exact .pull realizes source 0
  | cons head tail =>
    have within : (Work.plan tail scope).Within heap.cells.size := withinScope
    exact .cons realizes head within
  | suspend content =>
    have within : (Work.plan content scope).Within heap.cells.size := withinScope
    exact .suspended realizes within
  | ready content implemented =>
    refine (implemented realizes withinScope).bind fun stream made grows realizes agrees => ?_
    obtain ⟨within, rfl⟩ := agrees
    have made := (Implements.known realizes within).map Stream.suspended Unshared.suspended
      fun _ => ofCell_suspended
    exact made
  | merge left right implementedLeft implementedRight =>
    refine (implementedLeft realizes withinScope).bind fun first made grows realizes agrees => ?_
    obtain ⟨withinFirst, rfl⟩ := agrees
    rw [← unshared_scope_eq grows.keep withinScope]
    have withinScope := fun stream member => (withinScope stream member).mono grows.size
    refine (implementedRight realizes withinScope).bind fun second made grows realizes agrees => ?_
    obtain ⟨withinSecond, rfl⟩ := agrees
    rw [← withinFirst.unshared_eq grows.keep]
    exact executes.merge realizes (withinFirst.mono grows.size) withinSecond
  | mapcat source body implementedSource implementedBody =>
    refine (implementedSource realizes withinScope).bind fun stream made grows realizes agrees => ?_
    obtain ⟨within, rfl⟩ := agrees
    rw [← unshared_scope_eq grows.keep withinScope]
    have withinScope := fun stream member => (withinScope stream member).mono grows.size
    exact executes.mapcatWith realizes body withinScope
      (fun value => implementedBody value realizes withinScope) within
  | share stream body implementedStream implementedBody =>
    refine (implementedStream realizes withinScope).bind fun shared made grows realizes agrees => ?_
    obtain ⟨within, rfl⟩ := agrees
    rw [← unshared_scope_eq grows.keep withinScope]
    apply implementedBody realizes
    intro stream member
    rcases List.mem_cons.mp member with rfl | member
    · exact within
    · exact (withinScope stream member).mono grows.size
  | ref index =>
    have within : (scope.getD index .empty).Within heap.cells.size := by
      rw [List.getD_eq_getElem?_getD]
      cases found : scope[index]? with
      | none => trivial
      | some stream => exact withinScope stream (List.mem_of_getElem? found)
    have made := Implements.stream realizes within
    rw [← List.getD_map scope .empty (Stream.unshared recipe)] at made
    exact made
  | knot content => exact .knot realizes content withinScope
  | force stream implemented =>
    refine (implemented realizes withinScope).bind fun made _ grows realizes agrees => ?_
    obtain ⟨within, rfl⟩ := agrees
    exact executes.step realizes within
  | report event next implemented =>
    have recorded : comparison.Implements heap recipe (fun _ => Run.record (.reported event))
        (fun _ => some ()) fun _ _ _ _ => True :=
      .leaf rfl (.withTrace heap recipe _) (realizes.withTrace _) trivial
    have made : comparison.Implements heap recipe
        (fun handlers => Run.record (.reported event) >>= fun _ => next.eval handlers scope)
        (fun reading => some () >>= fun _ =>
          next.read reading (scope.map (Stream.unshared recipe))) ofStream := by
      refine recorded.bind fun _ _ grows realizes _ => ?_
      rw [← unshared_scope_eq grows.keep withinScope]
      exact implemented realizes fun stream member => (withinScope stream member).mono grows.size
    exact made
  | computed plan implemented => exact implemented () realizes withinScope
  | fail fault => exact .fault fault
  | call routine => exact executes.call routine realizes

/-- Carrying out a plan without a scope makes what is read of it. -/
theorem Executes.closedPlan (realizes : comparison.Realizes heap recipe) (plan : Plan α ε ρ) :
    comparison.Implements heap recipe (fun handlers => plan.eval handlers [])
      (fun reading => plan.read reading []) ofStream := by
  have within : ∀ stream ∈ ([] : List (Stream α)), stream.Within heap.cells.size :=
    fun _ member => nomatch member
  exact executes.plan realizes plan within

/-- Doing the work of a cell makes what its recipe makes. -/
theorem Executes.work (realizes : comparison.Realizes heap recipe) {work : Work α ε ρ}
    (within : work.Within heap.cells.size) :
    comparison.Implements heap recipe (fun handlers => work.run handlers) (work.recipe recipe).read
      ofStream := by
  cases work with
  | known stream => exact .stream realizes within
  | plan content scope => exact executes.plan realizes content within
  | merge first second =>
    refine (executes.force realizes within.1).bind fun stream made grows realizes agrees => ?_
    obtain ⟨withinStream, rfl⟩ := agrees
    have merged := executes.mergeWith realizes withinStream
      (Nat.lt_of_lt_of_le within.2 grows.size)
    rw [grows.keep second within.2] at merged
    exact merged
  | mapcat source body scope =>
    refine (executes.force realizes within.1).bind fun stream made grows realizes agrees => ?_
    obtain ⟨withinStream, rfl⟩ := agrees
    have withinScope := fun stream member => (within.2 stream member).mono grows.size
    have mapped := executes.mapcatWith realizes body withinScope
      (fun value => executes.plan realizes (body value) withinScope) withinStream
    rw [unshared_scope_eq grows.keep within.2] at mapped
    exact mapped
  | pull source position => exact .pull realizes source position

/-- What forcing a cell comes to, if the cell is there, is what its recipe makes. -/
theorem Executes.sound_forceCell (realizes : comparison.Realizes heap recipe) {cell : CellId}
    (there : cell < heap.cells.size) {bound : Nat} {result : Stream α} {after : Heap α ε ρ}
    (ran : forceCell (comparison.chain bound) cell heap = .ok result after) :
    ∃ recipe' made, comparison.limit.force (recipe cell) = some made ∧
      heap.Grows recipe after recipe' ∧ comparison.Realizes after recipe' ∧
        ofStream after recipe' result made := by
  have found := Array.getElem?_eq_getElem there
  rcases cellIs : heap.cells[cell] with ⟨work, status⟩
  rw [cellIs] at found
  cases status with
  | done stream =>
    rw [forceCell_done _ found] at ran
    cases ran
    exact ⟨recipe, _, realizes.done found, .refl _ _, realizes, realizes.closed.content found, rfl⟩
  | running =>
    rw [forceCell_running _ found] at ran
    exact nomatch ran
  | waiting =>
    obtain ⟨finished, worked, rfl⟩ := (forceCell_waiting_eq_ok found).mp ran
    have within : work.Within (heap.start cell).cells.size :=
      heap.size_start cell ▸ realizes.closed.work found
    have implemented := executes.work (realizes.start cell) within
    obtain ⟨recipe', made, known, grows, realizes', within, rfl⟩ := implemented.sound worked
    have content : comparison.limit.force (recipe cell) = some (result.unshared recipe') := by
      rw [comparison.fixed.force, realizes.waiting found]
      exact known
    refine ⟨recipe', _, content, grows.finish found result, ?_, ?_, rfl⟩
    · apply realizes'.mark
      · exact fun impossible => nomatch impossible
      · rintro _ ⟨⟩
        exact within
      · rintro _ ⟨⟩
        rw [grows.keep cell (by rw [Heap.size_start]; exact there)]
        exact content
    · rw [Heap.size_mark]
      exact within

/-- Forcing a cell comes to an end where its recipe is read at the depth and nothing is read of it
at lesser depths. -/
theorem Executes.complete_forceCell (realizes : comparison.Realizes heap recipe)
    (quiet : comparison.Quiet heap recipe) {cell : CellId} (there : cell < heap.cells.size)
    (idle : ¬ heap.Running cell) (unknown : comparison.reading.force (recipe cell) = none)
    {made : Unshared α ε ρ}
    (known : ((recipe cell).unfold comparison.base).read comparison.reading = some made) :
    ∃ bound result after, forceCell (comparison.chain bound) cell heap = .ok result after := by
  have found := Array.getElem?_eq_getElem there
  rcases cellIs : heap.cells[cell] with ⟨work, status⟩
  rw [cellIs] at found
  cases status with
  | done stream => exact ⟨0, stream, heap, forceCell_done _ found⟩
  | running => exact absurd ⟨work, found⟩ idle
  | waiting =>
    have still : comparison.Quiet (heap.start cell) recipe := by
      intro other running
      by_cases same : other = cell
      · rw [same]
        exact unknown
      · exact quiet other ((Heap.running_start (Ne.symm same)).mp running)
    rw [realizes.waiting found] at known
    have within : work.Within (heap.start cell).cells.size :=
      heap.size_start cell ▸ realizes.closed.work found
    obtain ⟨_, bound, result, after, ran⟩ :=
      (executes.work (realizes.start cell) within).complete still known
    exact ⟨bound, result, _, (forceCell_waiting_eq_ok found).mpr ⟨after, ran, rfl⟩⟩

end Executing

section Handlers

variable (routines : ρ → Plan α ε ρ) (base : Heap α ε ρ)

/-- Runs under one bound, compared with a reading that knows nothing. -/
def under (bound : Nat) : Comparison α ε ρ where
  routines := routines
  base := base
  chain _ := handlers routines bound
  reading := readings routines base 0
  rising _ := .refl _
  below := Reading.below_limit (Reading.readings_rising routines base) 0

/-- Runs under all bounds, compared with a reading to a depth. -/
def upTo (depth : Nat) : Comparison α ε ρ where
  routines := routines
  base := base
  chain := handlers routines
  reading := readings routines base depth
  rising := handlers_mono routines
  below := Reading.below_limit (Reading.readings_rising routines base) depth

/-- Under every bound, forcing and calling only make what can be read. -/
theorem executes_under (bound : Nat) : (under routines base bound).Executes := by
  induction bound with
  | zero =>
    constructor
    · intro heap recipe cell realizes there
      exact ⟨fun _ ran => ran, fun ran => (nomatch ran), fun _ found => (nomatch found)⟩
    · intro heap recipe routine realizes
      exact ⟨fun _ ran => ran, fun ran => (nomatch ran), fun _ found => (nomatch found)⟩
  | succ bound executes =>
    constructor
    · intro heap recipe cell realizes there
      refine ⟨fun _ ran => ran, fun {_ result after} ran => ?_, fun _ found => (nomatch found)⟩
      have forced : forceCell ((under routines base bound).chain 0) cell heap =
          .ok result after := ran
      exact executes.sound_forceCell realizes there forced
    · intro heap recipe routine realizes
      refine ⟨fun _ ran => ran, fun {_ result after} ran => ?_, fun _ found => (nomatch found)⟩
      have evaluated : (routines routine).eval ((under routines base bound).chain 0) [] heap =
          .ok result after := ran
      have sound := (executes.closedPlan realizes (routines routine)).sound evaluated
      rw [(under routines base (bound + 1)).fixed.call]
      exact sound

variable {routines base} {heap : Heap α ε ρ} {recipe : CellId → Recipe α ε ρ}

/-- Runs that only make what can be read under every single bound make what is read to a depth if
there is a bound under which they come to an end. -/
theorem Implements.gather {depth : Nat} {run : Handlers α ε ρ → Run α ε ρ γ}
    {value : Reading α ε ρ → Option γ'} {agree : Agreement α ε ρ γ γ'}
    (steady : Handlers.Steady run) (gradual : Reading.Gradual value)
    (sound : ∀ bound, (under routines base bound).Implements heap recipe run value agree)
    (complete : ∀ {made}, (upTo routines base depth).Quiet heap recipe →
      value (readings routines base depth) = some made →
        ∃ bound result after, run (handlers routines bound) heap = .ok result after) :
    (upTo routines base depth).Implements heap recipe run value agree where
  steady le ran := (steady.refines (handlers_mono routines le)).ok ran
  sound {bound result after} ran := by
    have single : run ((under routines base bound).chain 0) heap = .ok result after := ran
    exact (sound bound).sound single
  complete quiet found := ⟨gradual.keep (upTo routines base depth).below found,
    complete quiet found⟩

/-- What is not known to a depth is not known to a lesser depth. -/
theorem Quiet.less {depth : Nat} (quiet : (upTo routines base (depth + 1)).Quiet heap recipe) :
    (upTo routines base depth).Quiet heap recipe := by
  intro cell running
  rw [Option.eq_none_iff_forall_ne_some]
  intro made known
  have more := (Reading.readings_succ routines base depth).force known
  exact nomatch more.symm.trans (quiet cell running)

/-- Forcing and calling make what is read to a depth. Either less depth is enough, or the cell's own
work is what has to be read. -/
theorem executes_upTo (depth : Nat) : (upTo routines base depth).Executes := by
  induction depth with
  | zero =>
    constructor
    · intro heap recipe cell realizes there
      exact .gather (.force cell) (.force _)
        (fun bound => (executes_under routines base bound).force realizes there)
        fun _ found => nomatch found
    · intro heap recipe routine realizes
      exact .gather (.call routine) (.call routine)
        (fun bound => (executes_under routines base bound).call routine realizes)
        fun _ found => nomatch found
  | succ depth executes =>
    constructor
    · intro heap recipe cell realizes there
      refine .gather (.force cell) (.force _)
        (fun bound => (executes_under routines base bound).force realizes there) ?_
      intro made quiet found
      cases known : (readings routines base depth).force (recipe cell) with
      | some other => exact ((executes.force realizes there).complete quiet.less known).2
      | none =>
        have idle : ¬ heap.Running cell := by
          intro running
          exact nomatch found.symm.trans (quiet cell running)
        obtain ⟨bound, result, after, ran⟩ :=
          executes.complete_forceCell realizes quiet.less there idle known found
        exact ⟨bound + 1, result, after, ran⟩
    · intro heap recipe routine realizes
      refine .gather (.call routine) (.call routine)
        (fun bound => (executes_under routines base bound).call routine realizes) ?_
      intro made quiet found
      obtain ⟨_, bound, result, after, ran⟩ :=
        (executes.closedPlan realizes (routines routine)).complete quiet.less found
      exact ⟨bound + 1, result, after, ran⟩

end Handlers

end Comparison

end Relational
