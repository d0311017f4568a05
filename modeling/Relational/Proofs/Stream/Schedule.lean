import Relational.Proofs.Stream.Emission
import Relational.Proofs.Stream.Flattening
import Relational.Stream.Steps

/-!
# The schedule of a flat map

What a flat map shows on a closed heap is said by a law about step sequences, whatever the source
and the streams made of its values share and whatever has been forced before. Since the law nests
alternations, every step made of a value comes at a place that is bounded by its own place and
that of the value: no stream that is made of a value keeps back what is made of another one.
-/
namespace Relational

variable {α ε ρ : Type}

/-- What a plan makes on a heap shows these first steps, whatever bound on nesting is needed to
make it and to find them. -/
def Plan.Shows (routines : ρ → Plan α ε ρ) (heap : Heap α ε ρ) (scope : List (Stream α))
    (plan : Plan α ε ρ) (count : Nat) (steps : Steps α) : Prop :=
  ∃ bound made after, plan.eval (handlers routines bound) scope heap = .ok made after ∧
    made.Shows routines after count steps

/-- What is made by a run that makes what is read shows the steps of what is read. Whatever is made,
it is what is read. -/
theorem Run.shows_iff {routines : ρ → Plan α ε ρ} {heap : Heap α ε ρ}
    {run : Handlers α ε ρ → Run α ε ρ (Stream α)}
    {value : Reading α ε ρ → Option (Unshared α ε ρ)}
    (implemented : ∀ depth, (Comparison.upTo routines heap depth).Implements heap .cell run value
      Comparison.ofStream)
    (gradual : Reading.Gradual value) {count : Nat} {steps : Steps α} :
    Run.Shows routines heap run count steps ↔
      ∃ made, value (.full routines heap) = some made ∧
        made.observe (.full routines heap) count = some steps := by
  have made_iff : ∀ {bound : Nat} {result : Stream α} {after : Heap α ε ρ},
      run (handlers routines bound) heap = .ok result after →
        ∃ made, value (.full routines heap) = some made ∧
          (result.Shows routines after count steps ↔
            made.observe (.full routines heap) count = some steps) := by
    intro bound result after ran
    obtain ⟨recipe, made, read, grows, realizes, within, rfl⟩ :=
      sound_of_implements implemented ran
    exact ⟨_, read, Stream.shows_iff ((heap.undisturbed routines).grows grows) realizes within⟩
  constructor
  · rintro ⟨bound, result, after, ran, shows⟩
    obtain ⟨made, read, same⟩ := made_iff ran
    exact ⟨made, read, same.mp shows⟩
  · rintro ⟨made, read, seen⟩
    obtain ⟨bound, result, after, ran⟩ := complete_of_implements implemented
      (heap.undisturbed routines) gradual read
    obtain ⟨other, read', same⟩ := made_iff ran
    rw [read, Option.some.injEq] at read'
    exact ⟨bound, result, after, ran, same.mpr (read' ▸ seen)⟩

/-- A step is at a place among the steps of what a plan makes on a heap. -/
def Plan.StepAt (routines : ρ → Plan α ε ρ) (heap : Heap α ε ρ) (scope : List (Stream α))
    (plan : Plan α ε ρ) (index : Nat) (step : Step α) : Prop :=
  ∃ count steps, plan.Shows routines heap scope count steps ∧ steps[index]? = some step

namespace Stream

section Making

variable {routines : ρ → Plan α ε ρ} {heap : Heap α ε ρ} {scope : List (Stream α)}
  (closed : heap.Closed) (withinScope : ∀ stream ∈ scope, stream.Within heap.cells.size)

include closed withinScope

/-- On a closed heap a plan makes what shows the steps of what is read of the plan. -/
theorem plan_shows_iff {plan : Plan α ε ρ} {count : Nat} {steps : Steps α} :
    plan.Shows routines heap scope count steps ↔
      ∃ made, plan.read (.full routines heap) (scope.map (Stream.unshared .cell)) = some made ∧
        made.observe (.full routines heap) count = some steps :=
  have realizes := closed.realizes (Reading.limit_fixed routines heap).force
  Run.shows_iff (fun depth => (Comparison.executes_upTo depth).plan realizes plan withinScope)
    (.plan plan _)

/-- Where what a plan makes can be followed, what is read of the plan can be followed. -/
theorem exists_read {plan : Plan α ε ρ}
    (followed : ∀ count, ∃ steps, plan.Shows routines heap scope count steps) :
    ∃ made, plan.read (.full routines heap) (scope.map (Stream.unshared .cell)) = some made ∧
      made.Live (.full routines heap) := by
  obtain ⟨_, shows⟩ := followed 0
  obtain ⟨made, read, _⟩ := (plan_shows_iff closed withinScope).mp shows
  refine ⟨made, read, fun count => ?_⟩
  obtain ⟨steps, shows⟩ := followed count
  obtain ⟨other, read', seen⟩ := (plan_shows_iff closed withinScope).mp shows
  rw [read, Option.some.injEq] at read'
  exact ⟨steps, read' ▸ seen⟩

/-- What is seen of what a plan makes are the first steps of a sequence, if it can be followed. -/
theorem exists_plan_sequence {plan : Plan α ε ρ}
    (followed : ∀ count, ∃ steps, plan.Shows routines heap scope count steps) :
    ∃ sequence : Steps.Sequence α, ∀ {count steps},
      plan.Shows routines heap scope count steps ↔ steps = sequence.first count := by
  obtain ⟨made, read, live⟩ := exists_read closed withinScope followed
  refine ⟨made.sequence live, fun {count steps} => ?_⟩
  rw [plan_shows_iff closed withinScope, ← Unshared.observe_eq_some_iff live]
  constructor
  · rintro ⟨other, read', seen⟩
    rw [read, Option.some.injEq] at read'
    exact read' ▸ seen
  · exact fun seen => ⟨made, read, seen⟩

variable {source : Stream α} (within : source.Within heap.cells.size) {body : α → Plan α ε ρ}

include within

/-- On a closed heap a flat map makes what is read as the flat map. -/
theorem implements_mapcat (body : α → Plan α ε ρ) (depth : Nat) :
    (Comparison.upTo routines heap depth).Implements heap .cell
      (fun handlers => source.mapcatWith handlers body scope fun value =>
        (body value).eval handlers scope)
      (fun reading => (source.unshared .cell).mapcatWith reading body
        (scope.map (Stream.unshared .cell)) fun value =>
          (body value).read reading (scope.map (Stream.unshared .cell)))
      Comparison.ofStream :=
  have realizes := closed.realizes (Reading.limit_fixed routines heap).force
  (Comparison.executes_upTo depth).mapcatWith realizes body withinScope
    (fun value => (Comparison.executes_upTo depth).plan realizes (body value) withinScope) within

/-- A flat map of a stream that can be followed is made, where what is made of its values can be
followed. -/
theorem exists_mapcat (followed : ∀ count, ∃ steps, source.Shows routines heap count steps)
    (applied : ∀ index value, source.StepAt routines heap index (.value value) →
      ∀ count, ∃ steps, (body value).Shows routines heap scope count steps) :
    ∃ bound mapped after, source.mapcatWith (handlers routines bound) body scope
      (fun value => (body value).eval (handlers routines bound) scope) heap =
        .ok mapped after := by
  have live : (source.unshared .cell).Live (.full routines heap) := by
    intro count
    obtain ⟨steps, shows⟩ := followed count
    exact ⟨steps, (shows_iff_of_closed closed within).mp shows⟩
  have found : ∀ value, (source.unshared .cell).Emits (.full routines heap) value →
      ∃ made, (body value).read (.full routines heap) (scope.map (Stream.unshared .cell)) =
        some made ∧ made.Live (.full routines heap) := by
    intro value emitted
    obtain ⟨count, steps, seen, member⟩ := emitted.exists_observe
    obtain ⟨index, there⟩ := List.getElem?_of_mem member
    have step : source.StepAt routines heap index (.value value) :=
      ⟨count + 1, steps, (shows_iff_of_closed closed within).mpr seen, there⟩
    exact exists_read closed withinScope (applied index value step)
  obtain ⟨mapped, read, _⟩ :=
    Unshared.exists_mapcatWith (Reading.limit_fixed routines heap) live found
  exact complete_of_implements (implements_mapcat closed withinScope within body)
    (heap.undisturbed routines)
    (.mapcatWith body _ (fun value => .plan (body value) _) _) read

/-- A flat map that is made shows the first steps of its source, with the first steps of what is
made of each value in the value's place. -/
theorem shows_mapcat {bound : Nat} {mapped : Stream α} {after : Heap α ε ρ}
    (ran : source.mapcatWith (handlers routines bound) body scope
      (fun value => (body value).eval (handlers routines bound) scope) heap = .ok mapped after)
    {count : Nat} {ones : Steps α} {made : α → Steps α}
    (shows : source.Shows routines heap count ones)
    (applied : ∀ value, .value value ∈ ones →
      (body value).Shows routines heap scope count (made value)) {steps : Steps α} :
    mapped.Shows routines after count steps ↔
      steps = (Steps.flatMap made ones).take count := by
  obtain ⟨recipe, stream, read, grows, realizes, withinMapped, rfl⟩ :=
    sound_of_implements (implements_mapcat closed withinScope within body) ran
  have seen := (shows_iff_of_closed closed within).mp shows
  have observed : (mapped.unshared recipe).observe (.full routines heap) count =
      some ((Steps.flatMap made ones).take count) := by
    cases count with
    | zero => rw [Unshared.observe_zero, List.take_zero]
    | succ count =>
      obtain ⟨other, read', seen⟩ := Unshared.observe_mapcatWith
        (Reading.limit_fixed routines heap) seen fun value member =>
          (plan_shows_iff closed withinScope).mp (applied value member)
      rw [read, Option.some.injEq] at read'
      exact read' ▸ seen
  rw [shows_iff ((heap.undisturbed routines).grows grows) realizes withinMapped, observed,
    Option.some.injEq]
  exact eq_comm

end Making

variable (routines : ρ → Plan α ε ρ)

/-- The steps of all streams that a body makes of the values of a source are steps of another
stream, each at a place of its own, and no other values are there. -/
structure Scatters (heap : Heap α ε ρ) (source : Stream α) (scope : List (Stream α))
    (body : α → Plan α ε ρ) (after : Heap α ε ρ) (mapped : Stream α) (place : Nat → Nat → Nat) :
    Prop where
  /-- The steps of what is made of one value keep their order. -/
  order : ∀ outer, StrictMono (place outer)
  /-- No step of what is made of a value is lost. -/
  kept : ∀ {outer inner : Nat} {value : α} {step : Step α}, step ≠ .finish →
    source.StepAt routines heap outer (.value value) →
      (body value).StepAt routines heap scope inner step →
        mapped.StepAt routines after (place outer inner) step
  /-- There are no other values. -/
  origin : ∀ {index : Nat} {value : α}, mapped.StepAt routines after index (.value value) →
    ∃ outer inner origin, place outer inner = index ∧
      source.StepAt routines heap outer (.value origin) ∧
        (body origin).StepAt routines heap scope inner (.value value)
  /-- No step stands for several. -/
  apart : ∀ {outer inner outer' inner' : Nat} {value value' : α} {step step' : Step α},
    step ≠ .finish → step' ≠ .finish → source.StepAt routines heap outer (.value value) →
      (body value).StepAt routines heap scope inner step →
        source.StepAt routines heap outer' (.value value') →
          (body value').StepAt routines heap scope inner' step' →
            place outer inner = place outer' inner' → outer = outer' ∧ inner = inner'

/-- Where a stream shows the first steps of a sequence, what is made of its values those of other
sequences, and a third stream those of the flat map, the steps of what is made of the values are
steps of the third stream, at their places. -/
theorem scatters_of_shows {heap after : Heap α ε ρ} {source mapped : Stream α}
    {scope : List (Stream α)} {body : α → Plan α ε ρ} {sequence : Steps.Sequence α}
    {made : α → Steps.Sequence α}
    (from_ : ∀ {count steps}, source.Shows routines heap count steps ↔
      steps = sequence.first count)
    (applied : ∀ {index value}, source.StepAt routines heap index (.value value) →
      ∀ {count steps}, (body value).Shows routines heap scope count steps ↔
        steps = (made value).first count)
    (shows : ∀ {count steps}, mapped.Shows routines after count steps ↔
      steps = (sequence.flatMap made).first count) :
    Scatters routines heap source scope body after mapped
      (Steps.Sequence.mappedPlace made sequence) := by
  have stepFrom : ∀ {index : Nat} {step : Step α}, sequence.step? index = some step ↔
      source.StepAt routines heap index step := Steps.Sequence.step?_eq_some_iff from_
  have stepMade : ∀ {outer inner : Nat} {value : α} {step : Step α},
      source.StepAt routines heap outer (.value value) →
        ((made value).step? inner = some step ↔
          (body value).StepAt routines heap scope inner step) :=
    fun there => Steps.Sequence.step?_eq_some_iff (applied there)
  have stepMapped : ∀ {index : Nat} {step : Step α},
      (sequence.flatMap made).step? index = some step ↔ mapped.StepAt routines after index step :=
    Steps.Sequence.step?_eq_some_iff shows
  refine {
    order := Steps.Sequence.nestedPlace_strictMono _ _
    kept := ?kept
    origin := ?origin
    apart := ?apart }
  case kept =>
    intro outer inner value step open_ there found
    exact stepMapped.mp (Steps.Sequence.step?_mappedPlace (stepFrom.mpr there)
      ((stepMade there).mpr found) open_)
  case origin =>
    intro index value there
    obtain ⟨outer, inner, origin, same, there, found⟩ :=
      Steps.Sequence.exists_mappedPlace (stepMapped.mpr there)
    have there := stepFrom.mp there
    exact ⟨outer, inner, origin, same, there, (stepMade there).mp found⟩
  case apart =>
    intro outer inner outer' inner' value value' step step' open_ open' there found there' found'
      same
    exact Steps.Sequence.mappedPlace_inj open_ open' (stepFrom.mpr there)
      ((stepMade there).mpr found) (stepFrom.mpr there') ((stepMade there').mpr found') same

/-- A flat map of a stream is a fair schedule of what is made of its values. On a closed heap where
the stream and what is made of each of its values can be followed as far as is asked for, the flat
map is made under every bound that is large enough; its first steps are those of the source, with
the first steps of what is made of a value in turn with all that comes after the value; and every
step of what is made of a value has one place among them, no further on than is said by the place
of the value in the source and that of the step in what is made of the value. -/
theorem mapcat_scatters {heap : Heap α ε ρ} (closed : heap.Closed) {source : Stream α}
    (within : source.Within heap.cells.size) {scope : List (Stream α)}
    (withinScope : ∀ stream ∈ scope, stream.Within heap.cells.size) {body : α → Plan α ε ρ}
    (followed : ∀ count, ∃ steps, source.Shows routines heap count steps)
    (applied : ∀ index value, source.StepAt routines heap index (.value value) →
      ∀ count, ∃ steps, (body value).Shows routines heap scope count steps) :
    ∃ bound mapped after,
      (∀ more, bound ≤ more → source.mapcatWith (handlers routines more) body scope
        (fun value => (body value).eval (handlers routines more) scope) heap =
          .ok mapped after) ∧
      (∀ count ones made, source.Shows routines heap count ones →
        (∀ value, .value value ∈ ones →
          (body value).Shows routines heap scope count (made value)) → ∀ steps,
            mapped.Shows routines after count steps ↔
              steps = (Steps.flatMap made ones).take count) ∧
      ∃ place : Nat → Nat → Nat,
        Scatters routines heap source scope body after mapped place ∧
          ∀ outer inner, place outer inner ≤ 2 ^ outer * (2 * inner + 1) - 1 := by
  obtain ⟨bound, mapped, after, ran⟩ :=
    exists_mapcat closed withinScope within followed applied
  have stable : ∀ more, bound ≤ more → source.mapcatWith (handlers routines more) body scope
      (fun value => (body value).eval (handlers routines more) scope) heap = .ok mapped after := by
    intro more le
    have steady := Handlers.Steady.mapcatWith (ε := ε) (ρ := ρ) body scope
      (fun value => .plan (body value) scope) source
    exact (steady.refines (handlers_mono routines le)).ok ran
  obtain ⟨sequence, from_⟩ := exists_sequence closed within followed
  have sequences : ∀ value, ∃ made : Steps.Sequence α,
      ∀ {index}, source.StepAt routines heap index (.value value) →
        ∀ {count steps}, (body value).Shows routines heap scope count steps ↔
          steps = made.first count := by
    intro value
    by_cases there : ∃ index, source.StepAt routines heap index (.value value)
    · obtain ⟨index, there⟩ := there
      obtain ⟨made, same⟩ := exists_plan_sequence closed withinScope (applied index value there)
      exact ⟨made, fun _ => same⟩
    · exact ⟨.ended, fun {index} found => absurd ⟨index, found⟩ there⟩
  choose made shown using sequences
  have mappedShows : ∀ {count steps}, mapped.Shows routines after count steps ↔
      steps = (sequence.flatMap made).first count := by
    intro count steps
    refine shows_mapcat closed withinScope within ran (from_.mpr rfl) fun value member => ?_
    obtain ⟨index, there⟩ := List.getElem?_of_mem member
    exact (shown value ⟨count, _, from_.mpr rfl, there⟩).mpr rfl
  refine ⟨bound, mapped, after, stable, ?_, _, scatters_of_shows routines from_
    (fun there => shown _ there) mappedShows, Steps.Sequence.nestedPlace_le _ _⟩
  intro count ones made shows applied steps
  exact shows_mapcat closed withinScope within ran shows applied

/-- A heap of a stream that goes on with itself behind each value and of a suspension of itself. -/
def circles : Heap Nat Unit Empty :=
  ⟨#[⟨.known (.cons 7 0), .done (.cons 7 0)⟩, ⟨.known (.suspended 1), .done (.suspended 1)⟩], #[]⟩

/-- The heap of streams that go on with themselves is closed. -/
theorem circles_closed : circles.Closed := by
  constructor
  · intro cell found there
    rcases cell with _ | _ | cell
    · cases there
      exact Nat.succ_pos 1
    · cases there
      exact Nat.lt_succ_self 1
    · exact nomatch there
  · intro cell work stream there
    rcases cell with _ | _ | cell
    · cases there
      exact Nat.succ_pos 1
    · cases there
      exact Nat.lt_succ_self 1
    · exact nomatch there

/-- A stream that goes on with itself shows its first step again and again. -/
theorem circles_repeat (stream : Stream Nat) {step : Step Nat}
    (first : stream.observe (handlers nofun 1) 1 circles = .ok [step] circles)
    (again : ∀ count, stream.observe (handlers nofun 1) (count + 2) circles =
      (stream.observe (handlers nofun 1) (count + 1) >>= fun steps =>
        pure (step :: steps)) circles) (count : Nat) :
    stream.observe (handlers nofun 1) count circles = .ok (List.replicate count step) circles := by
  rcases count with _ | count
  · cases stream <;> rfl
  · induction count with
    | zero => exact first
    | succ count repeats =>
      rw [again, Run.bind_apply, repeats]
      rfl

/-- A value of which endless ticks are made, before endless values of which endless values are made,
does not keep back the first of these: it comes after one tick at most. -/
theorem value_behind_endless_ticks :
    ∃ bound mapped after,
      (cons 3 0).mapcatWith (handlers nofun bound) (fun value => .ref (if value = 3 then 1 else 0))
        [cons 7 0, suspended 1]
        (fun value => (Plan.ref (if value = 3 then 1 else 0)).eval (handlers nofun bound)
          [cons 7 0, suspended 1]) circles = .ok mapped after ∧
        ∃ index ≤ 1, mapped.StepAt nofun after index (.value 7) := by
  let body : Nat → Plan Nat Unit Empty := fun value => .ref (if value = 3 then 1 else 0)
  let scope : List (Stream Nat) := [cons 7 0, suspended 1]
  have withinSource : (cons 3 0 : Stream Nat).Within circles.cells.size := Nat.succ_pos 1
  have withinValues : (cons 7 0 : Stream Nat).Within circles.cells.size := Nat.succ_pos 1
  have withinTicks : (suspended 1 : Stream Nat).Within circles.cells.size := Nat.lt_succ_self 1
  have withinScope : ∀ stream ∈ scope, stream.Within circles.cells.size := by
    intro stream member
    rcases List.mem_cons.mp member with rfl | member
    · exact withinValues
    · rw [List.mem_singleton.mp member]
      exact withinTicks
  have values := circles_repeat (cons 7 0) rfl fun _ => rfl
  have ticks := circles_repeat (suspended 1) rfl fun _ => rfl
  have source : ∀ count, (cons 3 0 : Stream Nat).Shows nofun circles (count + 1)
      (.value 3 :: List.replicate count (.value 7)) := by
    intro count
    cases count with
    | zero => exact ⟨0, circles, rfl⟩
    | succ count =>
      have goes : (cons 3 0 : Stream Nat).observe (handlers nofun 1) (count + 2) circles =
          ((cons 7 0 : Stream Nat).observe (handlers nofun 1) (count + 1) >>= fun steps =>
            pure (.value 3 :: steps)) circles := rfl
      refine ⟨1, circles, ?_⟩
      rw [goes, Run.bind_apply, values]
      rfl
  have followed : ∀ count, ∃ steps, (cons 3 0 : Stream Nat).Shows nofun circles count steps := by
    intro count
    cases count with
    | zero => exact ⟨[], 0, circles, rfl⟩
    | succ count => exact ⟨_, source count⟩
  have applied : ∀ value count, (body value).Shows nofun circles scope count
      (List.replicate count (if value = 3 then .tick else .value 7)) := by
    intro value count
    by_cases three : value = 3
    · rw [if_pos three]
      have made : (body value).eval (handlers nofun 1) scope circles =
          .ok (suspended 1) circles := by
        show (Plan.ref (if value = 3 then 1 else 0)).eval _ scope circles = _
        rw [if_pos three]
        rfl
      exact ⟨1, _, _, made, 1, _, ticks count⟩
    · rw [if_neg three]
      have made : (body value).eval (handlers nofun 1) scope circles = .ok (cons 7 0) circles := by
        show (Plan.ref (if value = 3 then 1 else 0)).eval _ scope circles = _
        rw [if_neg three]
        rfl
      exact ⟨1, _, _, made, 1, _, values count⟩
  obtain ⟨bound, mapped, after, made, _, place, scatters, soon⟩ :=
    mapcat_scatters nofun circles_closed withinSource withinScope followed
      fun _ value _ count => ⟨_, applied value count⟩
  have second : (cons 3 0 : Stream Nat).StepAt nofun circles 1 (.value 7) :=
    ⟨2, _, source 1, rfl⟩
  have seven : (body 7).StepAt nofun circles scope 0 (.value 7) := ⟨1, _, applied 7 1, rfl⟩
  exact ⟨bound, mapped, after, made bound (Nat.le_refl bound), place 1 0, soon 1 0,
    scatters.kept (Steps.value_ne_finish 7) second seven⟩

end Stream

end Relational
