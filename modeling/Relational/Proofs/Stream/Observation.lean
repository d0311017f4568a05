import Relational.Proofs.Stream.Sharing

/-!
# Steps seen without sharing

The first steps of a stream on a heap are the first steps of the unshared stream that belongs to
it. So laws about steps can be shown where nothing is stored, and they hold on every heap and
after every other run.
-/
namespace Relational

variable {α ε ρ : Type}

/-- The first steps of a stream, at most so many. -/
def Unshared.observe (reading : Reading α ε ρ) : Nat → Unshared α ε ρ → Option (Steps α)
  | 0, _ => some []
  | _ + 1, empty => some [.finish]
  | 1, cons head _ => some [.value head]
  | 1, suspended _ => some [.tick]
  | count + 2, cons head tail => do
    let stream ← reading.force tail
    let steps ← observe reading (count + 1) stream
    some (.value head :: steps)
  | count + 2, suspended content => do
    let stream ← reading.force content
    let steps ← observe reading (count + 1) stream
    some (.tick :: steps)

/-- The first steps of what a recipe makes, at most so many. Where none are asked for the recipe
is not followed. -/
def Recipe.observe (reading : Reading α ε ρ) : Nat → Recipe α ε ρ → Option (Steps α)
  | 0, _ => some []
  | count + 1, recipe => do
    let stream ← reading.force recipe
    stream.observe reading (count + 1)

namespace Unshared

variable (reading : Reading α ε ρ)

@[simp]
theorem observe_zero (stream : Unshared α ε ρ) : stream.observe reading 0 = some [] := by
  cases stream <;> rfl

@[simp]
theorem observe_empty (count : Nat) :
    (empty : Unshared α ε ρ).observe reading (count + 1) = some [.finish] := by
  cases count <;> rfl

/-- After its value a stream goes on with its tail. -/
theorem observe_cons (head : α) (tail : Recipe α ε ρ) (count : Nat) :
    (cons head tail).observe reading (count + 1) =
      (tail.observe reading count).map (.value head :: ·) := by
  cases count with
  | zero => rfl
  | succ count =>
    simp only [observe, Recipe.observe, Option.bind_eq_bind]
    cases reading.force tail with
    | none => rfl
    | some stream => exact Option.map_eq_bind.symm

/-- After a tick a suspension goes on with its content. -/
theorem observe_suspended (content : Recipe α ε ρ) (count : Nat) :
    (suspended content).observe reading (count + 1) =
      (content.observe reading count).map (.tick :: ·) := by
  cases count with
  | zero => rfl
  | succ count =>
    simp only [observe, Recipe.observe, Option.bind_eq_bind]
    cases reading.force content with
    | none => rfl
    | some stream => exact Option.map_eq_bind.symm

variable {reading}

/-- The first steps of a stream start with fewer of its first steps. What lies behind the first step
is seen to the same depth both times. -/
theorem observe_take {stream : Unshared α ε ρ} {count fewer : Nat} {steps : Steps α}
    (le : fewer ≤ count) (observed : stream.observe reading count = some steps) :
    stream.observe reading fewer = some (steps.take fewer) := by
  induction fewer generalizing stream count steps with
  | zero => rw [observe_zero, List.take_zero]
  | succ fewer shorter =>
    obtain ⟨count, rfl⟩ : ∃ rest, count = rest + 1 := ⟨count - 1, by omega⟩
    have behind : ∀ {recipe : Recipe α ε ρ} {rest : Steps α},
        recipe.observe reading count = some rest →
          recipe.observe reading fewer = some (rest.take fewer) := by
      intro recipe rest seen
      cases fewer with
      | zero => rw [List.take_zero]; rfl
      | succ fewer =>
        cases count with
        | zero => exact absurd le (by omega)
        | succ count =>
          obtain ⟨made, forced, seen⟩ := Option.bind_eq_some_iff.mp seen
          exact Option.bind_eq_some_iff.mpr ⟨made, forced, shorter (by omega) seen⟩
    cases stream with
    | empty =>
      rw [observe_empty] at observed ⊢
      cases observed
      rw [List.take_succ_cons, List.take_nil]
    | cons head tail =>
      rw [observe_cons] at observed ⊢
      obtain ⟨rest, seen, rfl⟩ := Option.map_eq_some_iff.mp observed
      rw [behind seen, List.take_succ_cons, Option.map_some]
    | suspended content =>
      rw [observe_suspended] at observed ⊢
      obtain ⟨rest, seen, rfl⟩ := Option.map_eq_some_iff.mp observed
      rw [behind seen, List.take_succ_cons, Option.map_some]

end Unshared

namespace Recipe

variable {reading : Reading α ε ρ}

/-- The first steps of what a recipe makes are those of a stream that it makes. -/
theorem observe_succ_eq_some {recipe : Recipe α ε ρ} {count : Nat} {steps : Steps α} :
    recipe.observe reading (count + 1) = some steps ↔
      ∃ stream, reading.force recipe = some stream ∧
        stream.observe reading (count + 1) = some steps :=
  Option.bind_eq_some_iff

/-- The first steps of what a recipe makes start with fewer of them. -/
theorem observe_take {recipe : Recipe α ε ρ} {count fewer : Nat} {steps : Steps α}
    (le : fewer ≤ count) (observed : recipe.observe reading count = some steps) :
    recipe.observe reading fewer = some (steps.take fewer) := by
  cases fewer with
  | zero => rw [List.take_zero]; rfl
  | succ fewer =>
    obtain ⟨count, rfl⟩ : ∃ rest, count = rest + 1 := ⟨count - 1, by omega⟩
    obtain ⟨stream, made, observed⟩ := observe_succ_eq_some.mp observed
    exact observe_succ_eq_some.mpr ⟨stream, made, Unshared.observe_take le observed⟩

/-- There are at most as many steps as were asked for. -/
theorem length_observe_le {recipe : Recipe α ε ρ} {count : Nat} {steps : Steps α}
    (observed : recipe.observe reading count = some steps) : steps.length ≤ count := by
  have whole := observe_take (Nat.le_refl count) observed
  rw [observed, Option.some.injEq] at whole
  rw [whole]
  exact List.length_take_le _ _

end Recipe

namespace Comparison

variable {comparison : Comparison α ε ρ} {heap : Heap α ε ρ} {recipe : CellId → Recipe α ε ρ}

/-- Steps belong together if they are the same. -/
def ofSteps : Agreement α ε ρ (Steps α) (Steps α) := fun _ _ steps seen => seen = steps

/-- Looking at the first steps of a stream shows those that are read. Behind the first step lies
what a cell holds. -/
theorem Executes.observe (executes : comparison.Executes)
    (realizes : comparison.Realizes heap recipe) (count : Nat) {stream : Stream α}
    (within : stream.Within heap.cells.size) :
    comparison.Implements heap recipe (fun handlers => stream.observe handlers count)
      (fun reading => (stream.unshared recipe).observe reading count) ofSteps := by
  have shown : ∀ {heap : Heap α ε ρ} {recipe : CellId → Recipe α ε ρ} (steps : Steps α),
      comparison.Realizes heap recipe →
        comparison.Implements heap recipe (fun _ => pure steps) (fun _ => some steps) ofSteps :=
    fun steps realizes => .leaf rfl (.refl _ _) realizes rfl
  induction count generalizing heap recipe stream with
  | zero => exact shown [] realizes
  | succ count observed =>
    have behind : ∀ (first : Step α) {cell : CellId}, cell < heap.cells.size →
        comparison.Implements heap recipe
          (fun handlers => handlers.force cell >>= fun stream =>
            stream.observe handlers count >>= fun steps => pure (first :: steps))
          (fun reading => reading.force (recipe cell) >>= fun made =>
            made.observe reading count >>= fun steps => some (first :: steps)) ofSteps := by
      intro first cell there
      refine (executes.force realizes there).bind fun stream made grows realizes agrees => ?_
      obtain ⟨within, rfl⟩ := agrees
      exact (observed realizes within).map (first :: ·) (first :: ·) fun _ agrees =>
        congrArg (first :: ·) agrees
    cases stream with
    | empty =>
      cases count with
      | zero => exact shown [.finish] realizes
      | succ count => exact shown [.finish] realizes
    | cons head tail =>
      cases count with
      | zero => exact shown [.value head] realizes
      | succ count => exact behind (.value head) within
    | suspended cell =>
      cases count with
      | zero => exact shown [.tick] realizes
      | succ count => exact behind .tick within

/-- What is seen of a stream is read. -/
theorem observe_gradual (count : Nat) (stream : Unshared α ε ρ) :
    Reading.Gradual fun reading => stream.observe reading count := by
  induction count generalizing stream with
  | zero => exact .constant _
  | succ count gradual =>
    cases count with
    | zero => cases stream <;> exact .constant _
    | succ count =>
      cases stream with
      | empty => exact .constant _
      | cons head tail =>
        exact (Reading.Gradual.force tail).bind fun made => (gradual made).bind fun _ =>
          .constant _
      | suspended content =>
        exact (Reading.Gradual.force content).bind fun made => (gradual made).bind fun _ =>
          .constant _

end Comparison

section Adequacy

variable {routines : ρ → Plan α ε ρ} {base heap : Heap α ε ρ} {recipe : CellId → Recipe α ε ρ}
  {γ γ' : Type} {run : Handlers α ε ρ → Run α ε ρ γ} {value : Reading α ε ρ → Option γ'}
  {agree : Comparison.Agreement α ε ρ γ γ'}

/-- The reading that knows all that can be known of the cells of a heap. -/
noncomputable abbrev Reading.full (routines : ρ → Plan α ε ρ) (base : Heap α ε ρ) :
    Reading α ε ρ :=
  .limit (readings routines base)

/-- A heap without cells refers to none. -/
theorem Heap.closed_empty : (Heap.empty : Heap α ε ρ).Closed :=
  ⟨fun found => (nomatch found), fun found => (nomatch found)⟩

/-- Every closed heap realizes the recipes that name its own cells. -/
theorem Heap.Closed.realizes_full (closed : heap.Closed) :
    Heap.Realizes (.full routines heap) heap heap .cell :=
  closed.realizes (Reading.limit_fixed routines heap).force

/-- Nothing is known of what is under way. -/
def Heap.Undisturbed (heap : Heap α ε ρ) (routines : ρ → Plan α ε ρ) (base : Heap α ε ρ)
    (recipe : CellId → Recipe α ε ρ) : Prop :=
  ∀ depth, (Comparison.upTo routines base depth).Quiet heap recipe

/-- Nothing is known of what was under way from the start. -/
theorem Heap.undisturbed (routines : ρ → Plan α ε ρ) (base : Heap α ε ρ) :
    base.Undisturbed routines base .cell := by
  intro depth cell running
  obtain ⟨work, found⟩ := running
  cases depth with
  | zero => rfl
  | succ depth =>
    show ((Recipe.cell cell).unfold base).read (readings routines base depth) = none
    simp only [Recipe.unfold, found, Recipe.read]

/-- Where heaps grow nothing becomes known of what is under way. -/
theorem Heap.Undisturbed.grows {after : Heap α ε ρ} {recipe' : CellId → Recipe α ε ρ}
    (undisturbed : heap.Undisturbed routines base recipe)
    (grows : heap.Grows recipe after recipe') : after.Undisturbed routines base recipe' :=
  fun depth => (undisturbed depth).grows grows

/-- A result of a run is what is read without sharing. -/
theorem sound_of_implements
    (implemented : ∀ depth,
      (Comparison.upTo routines base depth).Implements heap recipe run value agree)
    {bound : Nat} {result : γ} {after : Heap α ε ρ}
    (ran : run (handlers routines bound) heap = .ok result after) :
    ∃ recipe' made, value (.full routines base) = some made ∧ heap.Grows recipe after recipe' ∧
      Heap.Realizes (.full routines base) base after recipe' ∧
        agree after recipe' result made := by
  have started : run ((Comparison.upTo routines base 0).chain bound) heap = .ok result after := ran
  exact (implemented 0).sound started

section Closing

variable {bound : Nat} {made : Stream α} {after : Heap α ε ρ}

/-- Where a run comes to a stream on a closed heap, the heap is closed still and no cell has gone,
and the stream refers to cells that are there. -/
theorem Heap.Closed.of_ok {run : Handlers α ε ρ → Run α ε ρ (Stream α)}
    {value : Reading α ε ρ → Option (Unshared α ε ρ)}
    (implemented : ∀ depth, (Comparison.upTo routines heap depth).Implements heap .cell run value
      Comparison.ofStream) (ran : run (handlers routines bound) heap = .ok made after) :
    after.Closed ∧ heap.cells.size ≤ after.cells.size ∧ made.Within after.cells.size := by
  obtain ⟨_, _, _, grows, realizes, within, _⟩ := sound_of_implements implemented ran
  exact ⟨realizes.closed, grows.size, within⟩

/-- Where a cell of a closed heap is forced the heap stays closed. -/
theorem Heap.Closed.of_force (closed : heap.Closed) {cell : CellId}
    (there : cell < heap.cells.size)
    (ran : (handlers routines bound).force cell heap = .ok made after) :
    after.Closed ∧ heap.cells.size ≤ after.cells.size ∧ made.Within after.cells.size :=
  Heap.Closed.of_ok
    (fun depth => (Comparison.executes_upTo depth).force closed.realizes_full there) ran

/-- Where a plan is carried out on a closed heap the heap stays closed. -/
theorem Heap.Closed.of_eval (closed : heap.Closed) {plan : Plan α ε ρ} {scope : List (Stream α)}
    (within : ∀ stream ∈ scope, stream.Within heap.cells.size)
    (ran : plan.eval (handlers routines bound) scope heap = .ok made after) :
    after.Closed ∧ heap.cells.size ≤ after.cells.size ∧ made.Within after.cells.size :=
  Heap.Closed.of_ok
    (fun depth => (Comparison.executes_upTo depth).plan closed.realizes_full plan within) ran

end Closing

/-- Where something is read without sharing the run has a result. -/
theorem complete_of_implements
    (implemented : ∀ depth,
      (Comparison.upTo routines base depth).Implements heap recipe run value agree)
    (undisturbed : heap.Undisturbed routines base recipe) (gradual : Reading.Gradual value)
    {made : γ'} (found : value (.full routines base) = some made) :
    ∃ bound result after, run (handlers routines bound) heap = .ok result after := by
  obtain ⟨depth, found⟩ := gradual.reach (Reading.readings_rising routines base) found
  exact ((implemented depth).complete (undisturbed depth) found).2

/-- A stream shows the steps of its unshared stream. -/
theorem Stream.shows_iff (undisturbed : heap.Undisturbed routines base recipe)
    (realizes : Heap.Realizes (.full routines base) base heap recipe) {stream : Stream α}
    (within : stream.Within heap.cells.size) {count : Nat} {steps : Steps α} :
    stream.Shows routines heap count steps ↔
      (stream.unshared recipe).observe (.full routines base) count = some steps := by
  have implemented := fun depth =>
    (Comparison.executes_upTo depth).observe realizes count within
  constructor
  · rintro ⟨bound, after, ran⟩
    obtain ⟨_, seen, known, _, _, rfl⟩ := sound_of_implements implemented ran
    exact known
  · intro known
    obtain ⟨bound, result, after, ran⟩ := complete_of_implements implemented undisturbed
      (Comparison.observe_gradual count _) known
    obtain ⟨_, seen, known', _, _, same⟩ := sound_of_implements implemented ran
    have steps_eq : steps = result := by
      rw [known, Option.some.injEq] at known'
      exact known'.trans same
    exact ⟨bound, after, steps_eq ▸ ran⟩

end Adequacy

/-!
## Drawing without sharing

Without sharing a stream is a value, and drawing from it takes nothing away from anybody: the next
value of a stream is read, and what is left is another stream. Looking for the next value on a heap
finds the one that is read.
-/

namespace Unshared

/-- The next value of a stream and the stream after it, following at most so many suspensions. -/
def uncons? (reading : Reading α ε ρ) : Nat → Unshared α ε ρ → Option (Option (α × Unshared α ε ρ))
  | _, empty => some none
  | _, cons head tail => some (some (head, suspended tail))
  | 0, suspended _ => none
  | bound + 1, suspended content => do
    let stream ← reading.force content
    uncons? reading bound stream

/-- These values are drawn from the first stream, and then the second one is left. -/
inductive Draws (reading : Reading α ε ρ) :
    Unshared α ε ρ → List (Option α) → Unshared α ε ρ → Prop where
  /-- Nothing is drawn. -/
  | nothing (stream : Unshared α ε ρ) : Draws reading stream [] stream
  /-- A value is drawn first. -/
  | value {bound : Nat} {stream rest last : Unshared α ε ρ} {value : α}
    {values : List (Option α)} (first : stream.uncons? reading bound = some (some (value, rest)))
    (later : Draws reading rest values last) : Draws reading stream (some value :: values) last
  /-- The stream is found to be at its end. -/
  | finish {bound : Nat} {stream last : Unshared α ε ρ} {values : List (Option α)}
    (first : stream.uncons? reading bound = some none)
    (later : Draws reading empty values last) : Draws reading stream (none :: values) last

/-- What is found is found also by following more suspensions. -/
theorem uncons?_mono {reading : Reading α ε ρ} {low high : Nat} (le : low ≤ high)
    {stream : Unshared α ε ρ} {seen : Option (α × Unshared α ε ρ)}
    (pulled : stream.uncons? reading low = some seen) :
    stream.uncons? reading high = some seen := by
  induction low, stream using uncons?.induct generalizing high with
  | case1 low =>
    rw [uncons?] at pulled ⊢
    exact pulled
  | case2 low head tail =>
    rw [uncons?] at pulled ⊢
    exact pulled
  | case3 content => exact nomatch pulled
  | case4 low content further =>
    obtain ⟨high, rfl⟩ : ∃ rest, high = rest + 1 := ⟨high - 1, by omega⟩
    obtain ⟨made, forced, pulled⟩ := Option.bind_eq_some_iff.mp pulled
    exact Option.bind_eq_some_iff.mpr ⟨made, forced, further made (by omega) pulled⟩

/-- Values are drawn one list after another. -/
theorem Draws.append {reading : Reading α ε ρ} {first second third : Unshared α ε ρ}
    {values values' : List (Option α)} (before : Draws reading first values second)
    (after : Draws reading second values' third) :
    Draws reading first (values ++ values') third := by
  induction before with
  | nothing => exact after
  | value pulled _ later => exact .value pulled (later after)
  | finish pulled _ later => exact .finish pulled (later after)

end Unshared

namespace Comparison

variable {comparison : Comparison α ε ρ} {heap : Heap α ε ρ} {recipe : CellId → Recipe α ε ρ}

/-- The same value was pulled, and the streams after it belong together. -/
def ofPulled : Agreement α ε ρ (Option (α × Stream α)) (Option (α × Unshared α ε ρ)) :=
  fun heap recipe => Option.Rel fun pulled seen =>
    seen.1 = pulled.1 ∧ ofStream heap recipe pulled.2 seen.2

/-- Looking for the next value finds the one that is read. -/
theorem Executes.uncons? (executes : comparison.Executes)
    (realizes : comparison.Realizes heap recipe) (bound : Nat) {stream : Stream α}
    (within : stream.Within heap.cells.size) :
    comparison.Implements heap recipe (fun handlers => stream.uncons? handlers bound)
      (fun reading => (stream.unshared recipe).uncons? reading bound) ofPulled := by
  induction bound, stream using Stream.uncons?.induct generalizing heap recipe with
  | case1 bound =>
    simp only [Stream.uncons?, Stream.unshared, Unshared.uncons?]
    exact .leaf rfl (.refl _ _) realizes .none
  | case2 bound head tail =>
    simp only [Stream.uncons?, Stream.unshared, Unshared.uncons?]
    exact .leaf rfl (.refl _ _) realizes (.some ⟨rfl, within, rfl⟩)
  | case3 cell => exact ⟨fun _ ran => ran, fun ran => (nomatch ran), fun _ found => (nomatch found)⟩
  | case4 bound cell further =>
    refine (executes.force realizes within).bind fun stream made grows realizes agrees => ?_
    obtain ⟨within, rfl⟩ := agrees
    exact further stream realizes within

/-- What is found when the next value is looked for is read. -/
theorem uncons_gradual (bound : Nat) (stream : Unshared α ε ρ) :
    Reading.Gradual fun reading => stream.uncons? reading bound := by
  induction bound, stream using Unshared.uncons?.induct with
  | case1 bound =>
    simp only [Unshared.uncons?]
    exact .constant _
  | case2 bound head tail =>
    simp only [Unshared.uncons?]
    exact .constant _
  | case3 content => exact .constant _
  | case4 bound content gradual => exact (Reading.Gradual.force content).bind gradual

end Comparison

end Relational
