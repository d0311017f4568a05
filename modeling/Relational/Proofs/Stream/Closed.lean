import Mathlib.Logic.Function.Basic
import Relational.Proofs.Stream.Unshared

/-!
# Heaps and the recipes they realize

In a closed heap every cell that is referred to is there. A closed heap realizes recipes, one for
each cell, if the work of a cell that is waiting is its recipe, and what a cell holds is what its
recipe makes. Nothing is asked of a cell whose work is under way. Making a cell, starting one and
storing its content keep a heap realizing recipes, and no cell ever gets another recipe.
-/
namespace Relational

variable {α ε ρ : Type}

/-- The cells a stream refers to are among so many. -/
def Stream.Within (size : Nat) : Stream α → Prop
  | empty => True
  | cons _ tail => tail < size
  | suspended cell => cell < size

/-- The cells that work refers to are among so many. -/
def Work.Within (size : Nat) : Work α ε ρ → Prop
  | known stream => stream.Within size
  | plan _ scope => ∀ stream ∈ scope, stream.Within size
  | merge first second => first < size ∧ second < size
  | mapcat source _ scope => source < size ∧ ∀ stream ∈ scope, stream.Within size
  | pull _ _ => True

/-- Among more cells there are the same ones. -/
theorem Stream.Within.mono {size more : Nat} {stream : Stream α} (within : stream.Within size)
    (le : size ≤ more) : stream.Within more := by
  cases stream with
  | empty => trivial
  | cons head tail => exact Nat.lt_of_lt_of_le within le
  | suspended cell => exact Nat.lt_of_lt_of_le within le

/-- Among more cells there are the same ones. -/
theorem Work.Within.mono {size more : Nat} {work : Work α ε ρ} (within : work.Within size)
    (le : size ≤ more) : work.Within more := by
  cases work with
  | known stream => exact Stream.Within.mono within le
  | plan content scope => exact fun stream member => (within stream member).mono le
  | merge first second =>
    exact ⟨Nat.lt_of_lt_of_le within.1 le, Nat.lt_of_lt_of_le within.2 le⟩
  | mapcat source body scope =>
    exact ⟨Nat.lt_of_lt_of_le within.1 le, fun stream member => (within.2 stream member).mono le⟩
  | pull source position => trivial

section Recipes

variable {size : Nat} {recipe recipe' : CellId → Recipe α ε ρ}
  (same : ∀ cell < size, recipe' cell = recipe cell)

include same

/-- A stream only depends on the recipes of the cells it refers to. -/
theorem Stream.Within.unshared_eq {stream : Stream α} (within : stream.Within size) :
    stream.unshared recipe' = stream.unshared recipe := by
  cases stream with
  | empty => rfl
  | cons head tail => exact congrArg (Unshared.cons head) (same tail within)
  | suspended cell => exact congrArg Unshared.suspended (same cell within)

/-- Streams only depend on the recipes of the cells they refer to. -/
theorem unshared_scope_eq {scope : List (Stream α)}
    (within : ∀ stream ∈ scope, stream.Within size) :
    scope.map (Stream.unshared recipe') = scope.map (Stream.unshared recipe) :=
  List.map_congr_left fun stream member => (within stream member).unshared_eq same

/-- Work only depends on the recipes of the cells it refers to. -/
theorem Work.Within.recipe_eq {work : Work α ε ρ} (within : work.Within size) :
    work.recipe recipe' = work.recipe recipe := by
  cases work with
  | known stream => exact congrArg Recipe.known (Stream.Within.unshared_eq same within)
  | plan content scope => exact congrArg (Recipe.plan content) (unshared_scope_eq same within)
  | merge first second =>
    show Recipe.merge (recipe' first) (recipe' second) = .merge (recipe first) (recipe second)
    rw [same first within.1, same second within.2]
  | mapcat source body scope =>
    show Recipe.mapcat (recipe' source) body (scope.map (Stream.unshared recipe')) =
      .mapcat (recipe source) body (scope.map (Stream.unshared recipe))
    rw [same source within.1, unshared_scope_eq same within.2]
  | pull source position => rfl

end Recipes

namespace Heap

/-- The heap with one more cell. -/
def push (heap : Heap α ε ρ) (cell : Cell α ε ρ) : Heap α ε ρ :=
  { heap with cells := heap.cells.push cell }

/-- The heap with a cell moved on. -/
def mark (heap : Heap α ε ρ) (cell : CellId) (status : Status α) : Heap α ε ρ :=
  { heap with cells := heap.cells.modify cell fun old => { old with status } }

/-- The same cells with something else recorded. -/
def withTrace (heap : Heap α ε ρ) (trace : Array (Occurrence ε)) : Heap α ε ρ :=
  { heap with trace }

@[simp]
theorem size_push (heap : Heap α ε ρ) (cell : Cell α ε ρ) :
    (heap.push cell).cells.size = heap.cells.size + 1 :=
  Array.size_push _

@[simp]
theorem size_mark (heap : Heap α ε ρ) (cell : CellId) (status : Status α) :
    (heap.mark cell status).cells.size = heap.cells.size :=
  Array.size_modify

/-- The cells of a heap with one more. -/
theorem getElem?_push (heap : Heap α ε ρ) (cell : Cell α ε ρ) (other : CellId) :
    (heap.push cell).cells[other]? =
      if other = heap.cells.size then some cell else heap.cells[other]? :=
  Array.getElem?_push

/-- The cells of a heap with one moved on. -/
theorem getElem?_mark (heap : Heap α ε ρ) (cell : CellId) (status : Status α) (other : CellId) :
    (heap.mark cell status).cells[other]? =
      if cell = other then heap.cells[other]?.map fun old => { old with status }
      else heap.cells[other]? :=
  Array.getElem?_modify

/-- A cell of a heap with one more is the new one or was there before. -/
theorem cases_of_push {heap : Heap α ε ρ} {cell found : Cell α ε ρ} {number : CellId}
    (there : (heap.push cell).cells[number]? = some found) :
    number = heap.cells.size ∧ found = cell ∨ heap.cells[number]? = some found := by
  rw [getElem?_push] at there
  by_cases last : number = heap.cells.size
  · rw [if_pos last, Option.some.injEq] at there
    exact .inl ⟨last, there.symm⟩
  · rw [if_neg last] at there
    exact .inr there

/-- A cell of a heap with one moved on is that one with its work or is as it was before. -/
theorem cases_of_mark {heap : Heap α ε ρ} {cell number : CellId} {status : Status α}
    {found : Cell α ε ρ} (there : (heap.mark cell status).cells[number]? = some found) :
    (cell = number ∧ found.status = status ∧
      ∃ old, heap.cells[number]? = some ⟨found.work, old⟩) ∨
      heap.cells[number]? = some found := by
  rw [getElem?_mark] at there
  by_cases here : cell = number
  · rw [if_pos here] at there
    obtain ⟨old, found', rfl⟩ := Option.map_eq_some_iff.mp there
    exact .inl ⟨here, rfl, old.status, found'⟩
  · rw [if_neg here] at there
    exact .inr there

/-- A cell that is there is among the cells. -/
theorem lt_size_of_getElem? {heap : Heap α ε ρ} {cell : CellId} {found : Cell α ε ρ}
    (there : heap.cells[cell]? = some found) : cell < heap.cells.size := by
  obtain ⟨within, _⟩ := Array.getElem?_eq_some_iff.mp there
  exact within

/-- The work of a cell is under way. -/
def Running (heap : Heap α ε ρ) (cell : CellId) : Prop :=
  ∃ work, heap.cells[cell]? = some ⟨work, .running⟩

/-- Every cell that is referred to is there. -/
structure Closed (heap : Heap α ε ρ) : Prop where
  /-- By the work of a cell. -/
  work : ∀ {cell : CellId} {found : Cell α ε ρ}, heap.cells[cell]? = some found →
    found.work.Within heap.cells.size
  /-- By the content of a cell. -/
  content : ∀ {cell : CellId} {work : Work α ε ρ} {stream : Stream α},
    heap.cells[cell]? = some ⟨work, .done stream⟩ → stream.Within heap.cells.size

/-- A heap is closed whatever happened. -/
theorem Closed.withTrace {heap : Heap α ε ρ} (closed : heap.Closed) (trace : Array (Occurrence ε)) :
    (heap.withTrace trace).Closed :=
  ⟨closed.work, closed.content⟩

/-- A closed heap stays closed with one more cell that refers to cells that are there. -/
theorem Closed.push {heap : Heap α ε ρ} (closed : heap.Closed) {cell : Cell α ε ρ}
    (work : cell.work.Within (heap.cells.size + 1))
    (content : ∀ stream, cell.status = .done stream → stream.Within (heap.cells.size + 1)) :
    (heap.push cell).Closed := by
  constructor
  · intro number found there
    rw [size_push]
    rcases cases_of_push there with ⟨_, rfl⟩ | there
    · exact work
    · exact (closed.work there).mono (Nat.le_succ _)
  · intro number work stream there
    rw [size_push]
    rcases cases_of_push there with ⟨_, rfl⟩ | there
    · exact content stream rfl
    · exact (closed.content there).mono (Nat.le_succ _)

/-- A closed heap stays closed with a cell moved on. -/
theorem Closed.mark {heap : Heap α ε ρ} (closed : heap.Closed) {cell : CellId}
    {status : Status α}
    (content : ∀ stream, status = .done stream → stream.Within heap.cells.size) :
    (heap.mark cell status).Closed := by
  constructor
  · intro number found there
    rw [size_mark]
    rcases cases_of_mark there with ⟨_, _, old, there⟩ | there
    · have within := closed.work there
      exact within
    · exact closed.work there
  · intro number work stream there
    rw [size_mark]
    rcases cases_of_mark there with ⟨_, same, _⟩ | there
    · exact content stream same.symm
    · exact closed.content there

/-- A heap that comes from another by work that was done in between. -/
structure Grows (before : Heap α ε ρ) (recipe : CellId → Recipe α ε ρ) (after : Heap α ε ρ)
    (recipe' : CellId → Recipe α ε ρ) : Prop where
  /-- No cell has gone. -/
  size : before.cells.size ≤ after.cells.size
  /-- No cell has another recipe. -/
  keep : ∀ cell < before.cells.size, recipe' cell = recipe cell
  /-- The same work is under way. -/
  running : ∀ {cell : CellId}, after.Running cell ↔ before.Running cell

/-- A heap comes from itself. -/
theorem Grows.refl (heap : Heap α ε ρ) (recipe : CellId → Recipe α ε ρ) :
    heap.Grows recipe heap recipe :=
  ⟨Nat.le_refl _, fun _ _ => rfl, Iff.rfl⟩

/-- What comes from a heap that comes from another comes from that one. -/
theorem Grows.trans {first second third : Heap α ε ρ}
    {recipe recipe' recipe'' : CellId → Recipe α ε ρ} (before : first.Grows recipe second recipe')
    (after : second.Grows recipe' third recipe'') : first.Grows recipe third recipe'' where
  size := Nat.le_trans before.size after.size
  keep cell within :=
    (after.keep cell (Nat.lt_of_lt_of_le within before.size)).trans (before.keep cell within)
  running := after.running.trans before.running

/-- A heap realizes recipes, where a reading says what recipes make. -/
structure Realizes (reading : Reading α ε ρ) (base heap : Heap α ε ρ)
    (recipe : CellId → Recipe α ε ρ) : Prop where
  /-- The heap is closed. -/
  closed : heap.Closed
  /-- The recipe of a cell that is waiting is its work. -/
  waiting : ∀ {cell : CellId} {work : Work α ε ρ},
    heap.cells[cell]? = some ⟨work, .waiting⟩ → (recipe cell).unfold base = work.recipe recipe
  /-- The content of a cell is what its recipe makes. -/
  done : ∀ {cell : CellId} {work : Work α ε ρ} {stream : Stream α},
    heap.cells[cell]? = some ⟨work, .done stream⟩ →
      reading.force (recipe cell) = some (stream.unshared recipe)

variable {reading : Reading α ε ρ} {base heap : Heap α ε ρ} {recipe : CellId → Recipe α ε ρ}

/-- Every closed heap realizes the recipes that name its own cells. -/
theorem Closed.realizes (closed : base.Closed)
    (opened : ∀ recipe : Recipe α ε ρ,
      reading.force recipe = (recipe.unfold base).read reading) :
    Realizes reading base base .cell where
  closed := closed
  waiting found := by simp only [Recipe.unfold, found]
  done found := by
    rw [opened]
    simp only [Recipe.unfold, found, Recipe.read]

/-- What happened does not matter. -/
theorem Realizes.withTrace (realizes : Realizes reading base heap recipe)
    (trace : Array (Occurrence ε)) : Realizes reading base (heap.withTrace trace) recipe :=
  ⟨realizes.closed.withTrace trace, realizes.waiting, realizes.done⟩

/-- Whatever happened, the heap comes from the one before. -/
theorem Grows.withTrace (heap : Heap α ε ρ) (recipe : CellId → Recipe α ε ρ)
    (trace : Array (Occurrence ε)) : heap.Grows recipe (heap.withTrace trace) recipe :=
  ⟨Nat.le_refl _, fun _ _ => rfl, Iff.rfl⟩

/-- The recipes with one more. -/
def extend (heap : Heap α ε ρ) (recipe : CellId → Recipe α ε ρ) (new : Recipe α ε ρ) :
    CellId → Recipe α ε ρ :=
  Function.update recipe heap.cells.size new

/-- The new cell has the new recipe. -/
theorem extend_self (heap : Heap α ε ρ) (recipe : CellId → Recipe α ε ρ) (new : Recipe α ε ρ) :
    heap.extend recipe new heap.cells.size = new :=
  Function.update_self _ _ _

/-- One more recipe changes none of those before. -/
theorem extend_of_lt (heap : Heap α ε ρ) (recipe : CellId → Recipe α ε ρ) (new : Recipe α ε ρ) :
    ∀ cell < heap.cells.size, heap.extend recipe new cell = recipe cell :=
  fun _ within => Function.update_of_ne (Nat.ne_of_lt within) _ _

/-- A heap grows by a cell that is not under way. -/
theorem Grows.push (recipe : CellId → Recipe α ε ρ) (new : Recipe α ε ρ) {cell : Cell α ε ρ}
    (idle : cell.status ≠ .running) :
    heap.Grows recipe (heap.push cell) (heap.extend recipe new) where
  size := by rw [size_push]; exact Nat.le_succ _
  keep := extend_of_lt heap recipe new
  running := by
    intro number
    constructor
    · rintro ⟨work, found⟩
      rw [getElem?_push] at found
      by_cases last : number = heap.cells.size
      · rw [if_pos last, Option.some.injEq] at found
        rw [found] at idle
        exact absurd rfl idle
      · rw [if_neg last] at found
        exact ⟨work, found⟩
    · rintro ⟨work, found⟩
      refine ⟨work, ?_⟩
      rw [getElem?_push, if_neg (Nat.ne_of_lt (lt_size_of_getElem? found))]
      exact found

/-- A heap with one more cell realizes one more recipe. -/
theorem Realizes.push (realizes : Realizes reading base heap recipe) {new : Recipe α ε ρ}
    {cell : Cell α ε ρ} (work : cell.work.Within (heap.cells.size + 1))
    (content : ∀ stream, cell.status = .done stream → stream.Within (heap.cells.size + 1))
    (waiting : cell.status = .waiting →
      new.unfold base = cell.work.recipe (heap.extend recipe new))
    (done : ∀ stream, cell.status = .done stream →
      reading.force new = some (stream.unshared (heap.extend recipe new))) :
    Realizes reading base (heap.push cell) (heap.extend recipe new) := by
  have same := extend_of_lt heap recipe new
  refine ⟨realizes.closed.push work content, ?_, ?_⟩
  · intro number work there
    rcases cases_of_push there with ⟨rfl, rfl⟩ | there
    · rw [extend_self]
      exact waiting rfl
    · rw [same number (lt_size_of_getElem? there), realizes.waiting there,
        (realizes.closed.work there).recipe_eq same]
  · intro number work stream there
    rcases cases_of_push there with ⟨rfl, rfl⟩ | there
    · rw [extend_self]
      exact done stream rfl
    · rw [same number (lt_size_of_getElem? there), realizes.done there,
        (realizes.closed.content there).unshared_eq same]

/-- A heap realizes the same recipes with a cell moved on to what its recipe makes, or to work that
is under way. -/
theorem Realizes.mark (realizes : Realizes reading base heap recipe) {cell : CellId}
    {status : Status α} (begun : status ≠ .waiting)
    (content : ∀ stream, status = .done stream → stream.Within heap.cells.size)
    (done : ∀ stream, status = .done stream →
      reading.force (recipe cell) = some (stream.unshared recipe)) :
    Realizes reading base (heap.mark cell status) recipe := by
  refine ⟨realizes.closed.mark content, ?_, ?_⟩
  · intro number work there
    rcases cases_of_mark there with ⟨_, same, _⟩ | there
    · exact absurd same.symm begun
    · exact realizes.waiting there
  · intro number work stream there
    rcases cases_of_mark there with ⟨rfl, same, _⟩ | there
    · exact done stream same.symm
    · exact realizes.done there

/-- Which work is under way once a cell is moved on. -/
theorem running_mark {cell number : CellId} {status : Status α} (apart : cell ≠ number) :
    (heap.mark cell status).Running number ↔ heap.Running number := by
  unfold Running
  rw [getElem?_mark, if_neg apart]

/-- The work of a cell that is moved on is under way if it is moved on to that. -/
theorem running_mark_self {cell : CellId} {status : Status α} (there : cell < heap.cells.size) :
    (heap.mark cell status).Running cell ↔ status = .running := by
  unfold Running
  rw [getElem?_mark, if_pos rfl, Array.getElem?_eq_getElem there, Option.map_some]
  constructor
  · rintro ⟨work, found⟩
    rw [Option.some.injEq, Cell.mk.injEq] at found
    exact found.2
  · rintro rfl
    exact ⟨_, rfl⟩

/-- The heap in which the work of a cell is begun. -/
def start (heap : Heap α ε ρ) (cell : CellId) : Heap α ε ρ :=
  (heap.mark cell .running).withTrace (heap.trace.push (.started cell))

@[simp]
theorem size_start (heap : Heap α ε ρ) (cell : CellId) :
    (heap.start cell).cells.size = heap.cells.size :=
  size_mark heap cell .running

/-- A closed heap stays closed where the work of a cell is begun. -/
theorem Closed.start (closed : heap.Closed) (cell : CellId) : (heap.start cell).Closed := by
  have marked : (heap.mark cell .running).Closed :=
    closed.mark fun _ impossible => nomatch impossible
  exact marked.withTrace _

/-- Beginning the work of a cell changes no recipe. -/
theorem Realizes.start (realizes : Realizes reading base heap recipe) (cell : CellId) :
    Realizes reading base (heap.start cell) recipe := by
  apply Realizes.withTrace
  apply realizes.mark
  · exact fun impossible => nomatch impossible
  · exact fun _ impossible => nomatch impossible
  · exact fun _ impossible => nomatch impossible

/-- Beginning the work of a cell begins no other work. -/
theorem running_start {cell number : CellId} (apart : cell ≠ number) :
    (heap.start cell).Running number ↔ heap.Running number :=
  running_mark apart

/-- Where work has been done that was begun for a cell, the heap has grown by that. -/
theorem Grows.finish {cell : CellId} {work : Work α ε ρ}
    (found : heap.cells[cell]? = some ⟨work, .waiting⟩) {after : Heap α ε ρ}
    {recipe' : CellId → Recipe α ε ρ} (grows : (heap.start cell).Grows recipe after recipe')
    (stream : Stream α) : heap.Grows recipe (after.mark cell (.done stream)) recipe' := by
  have size : heap.cells.size ≤ after.cells.size := by
    rw [← size_start heap cell]
    exact grows.size
  refine ⟨?_, ?_, ?_⟩
  · rw [size_mark]
    exact size
  · intro other within
    exact grows.keep other (by rw [size_start]; exact within)
  · intro other
    by_cases here : cell = other
    · subst here
      have there := lt_size_of_getElem? found
      rw [running_mark_self (Nat.lt_of_lt_of_le there size)]
      constructor
      · exact fun impossible => nomatch impossible
      · rintro ⟨_, running⟩
        rw [found] at running
        exact nomatch running
    · rw [running_mark here, grows.running, running_start here]

end Heap

end Relational
