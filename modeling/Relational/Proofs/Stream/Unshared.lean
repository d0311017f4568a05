import Mathlib.Data.Nat.Find
import Relational.Stream.Steps

/-!
# Streams without sharing

A cell stores its content, so that what a run does depends on the runs before it. What a stream
shows does not: here the same plans are read without a heap. Where a stream has a cell, an
unshared stream has a recipe, which is followed anew each time it is asked for. Following recipes
may never end, so readings are approximated: each one follows recipes one level deeper than the
one before, and their limit has everything that some of them has.
-/
namespace Relational

variable {α ε ρ : Type}

mutual

/-- What the content of a cell is, said without cells. -/
inductive Recipe (α ε ρ : Type) where
  /-- The content of a cell that was there from the start. -/
  | cell (number : CellId)
  /-- A stream made before. -/
  | known (content : Unshared α ε ρ)
  /-- What a plan makes, where it may refer to the streams of its scope. -/
  | plan (content : Plan α ε ρ) (scope : List (Unshared α ε ρ))
  /-- What a plan makes that may also refer to the suspension of this recipe. -/
  | knot (content : Plan α ε ρ) (scope : List (Unshared α ε ρ))
  /-- What one recipe makes in turn with what another makes. -/
  | merge (first second : Recipe α ε ρ)
  /-- What the body makes of the values of a recipe. -/
  | mapcat (source : Recipe α ε ρ) (body : α → Plan α ε ρ) (scope : List (Unshared α ε ρ))
  /-- The items of a source from a position on. -/
  | pull (source : Source α ε) (position : Nat)

/-- A lazy sequence of values that stores nothing. -/
inductive Unshared (α ε ρ : Type) where
  /-- No more values. -/
  | empty
  /-- A value and the recipe of the values after it. -/
  | cons (head : α) (tail : Recipe α ε ρ)
  /-- The recipe of what comes next. -/
  | suspended (content : Recipe α ε ρ)

end

instance : Inhabited (Unshared α ε ρ) := ⟨.empty⟩

/-- A stream with a recipe in place of each cell. -/
def Stream.unshared (recipe : CellId → Recipe α ε ρ) : Stream α → Unshared α ε ρ
  | empty => .empty
  | cons head tail => .cons head (recipe tail)
  | suspended cell => .suspended (recipe cell)

/-- What a cell's work is as a recipe, with a recipe in place of each cell. -/
def Work.recipe (recipe : CellId → Recipe α ε ρ) : Work α ε ρ → Recipe α ε ρ
  | known stream => .known (stream.unshared recipe)
  | plan content scope => .plan content (scope.map (Stream.unshared recipe))
  | merge first second => .merge (recipe first) (recipe second)
  | mapcat source body scope =>
    .mapcat (recipe source) body (scope.map (Stream.unshared recipe))
  | pull source position => .pull source position

/-- Says, as far as it can, what recipes and routines make. -/
structure Reading (α ε ρ : Type) where
  /-- What a recipe makes. -/
  force : Recipe α ε ρ → Option (Unshared α ε ρ)
  /-- What a routine makes. -/
  call : ρ → Option (Unshared α ε ρ)

namespace Source

/-- The items of a source from a position on. -/
def read (source : Source α ε) (position : Nat) : Unshared α ε ρ :=
  match source.item position with
  | none => .empty
  | some item => .cons item (.pull source (position + 1))

end Source

namespace Unshared

/-- The values of a stream and of a recipe in turn, the stream first. -/
def mergeWith (reading : Reading α ε ρ) (first : Unshared α ε ρ) (second : Recipe α ε ρ) :
    Option (Unshared α ε ρ) :=
  match first with
  | empty => reading.force second
  | cons head tail => some (cons head (.merge second tail))
  | suspended content => some (suspended (.merge second content))

/-- What the body makes of the values of a stream, where `apply` reads the body. -/
def mapcatWith (reading : Reading α ε ρ) (body : α → Plan α ε ρ)
    (scope : List (Unshared α ε ρ)) (apply : α → Option (Unshared α ε ρ))
    (source : Unshared α ε ρ) : Option (Unshared α ε ρ) :=
  match source with
  | empty => some empty
  | cons head tail => do
    let first ← apply head
    match first with
    | empty => some (suspended (.mapcat tail body scope))
    | first => first.mergeWith reading (.mapcat tail body scope)
  | suspended content => some (suspended (.mapcat content body scope))

/-- One step along a stream. -/
def step (reading : Reading α ε ρ) : Unshared α ε ρ → Option (Unshared α ε ρ)
  | empty => some empty
  | cons _ tail => reading.force tail
  | suspended content => reading.force content

end Unshared

/-- What a plan makes that may refer to the streams of a scope. -/
def Plan.read (reading : Reading α ε ρ) (scope : List (Unshared α ε ρ)) :
    Plan α ε ρ → Option (Unshared α ε ρ)
  | empty => some .empty
  | unit value => some (.cons value (.known .empty))
  | lazy source => some (source.read 0)
  | cons head tail => some (.cons head (.plan tail scope))
  | suspend content => some (.suspended (.plan content scope))
  | ready content => do
    let stream ← read reading scope content
    some (.suspended (.known stream))
  | merge left right => do
    let first ← read reading scope left
    let second ← read reading scope right
    first.mergeWith reading (.known second)
  | mapcat source body => do
    let stream ← read reading scope source
    stream.mapcatWith reading body scope fun value => read reading scope (body value)
  | share stream body => do
    let shared ← read reading scope stream
    read reading (shared :: scope) body
  | ref index => some (scope.getD index .empty)
  | knot content => some (.suspended (.knot content scope))
  | force stream => do
    let stream ← read reading scope stream
    stream.step reading
  | report _ next => read reading scope next
  | computed plan => read reading scope (plan ())
  | fail _ => none
  | call routine => reading.call routine

namespace Recipe

/-- Opens a recipe that only names another one: a cell that was there from the start, or a recipe
that refers to itself. A cell whose work is under way stays closed. -/
def unfold (base : Heap α ε ρ) : Recipe α ε ρ → Recipe α ε ρ
  | cell number =>
    match base.cells[number]? with
    | none => known .empty
    | some ⟨_, .done stream⟩ => known (stream.unshared cell)
    | some ⟨_, .running⟩ => cell number
    | some ⟨work, .waiting⟩ => work.recipe cell
  | knot content scope => plan content (.suspended (knot content scope) :: scope)
  | known content => known content
  | plan content scope => plan content scope
  | merge first second => merge first second
  | mapcat source body scope => mapcat source body scope
  | pull source position => pull source position

/-- What an opened recipe makes. -/
def read (reading : Reading α ε ρ) : Recipe α ε ρ → Option (Unshared α ε ρ)
  | cell _ => none
  | knot _ _ => none
  | known content => some content
  | plan content scope => content.read reading scope
  | merge first second => do
    let stream ← reading.force first
    stream.mergeWith reading second
  | mapcat source body scope => do
    let stream ← reading.force source
    stream.mapcatWith reading body scope fun value => (body value).read reading scope
  | pull source position => some (source.read position)

end Recipe

/-- Opening changes nothing about the work of a cell. -/
@[simp]
theorem Work.unfold_recipe (base : Heap α ε ρ) (recipe : CellId → Recipe α ε ρ)
    (work : Work α ε ρ) : (work.recipe recipe).unfold base = work.recipe recipe := by
  cases work <;> rfl

/-- Readings that follow recipes to a depth, where cells are those of a heap. -/
def readings (routines : ρ → Plan α ε ρ) (base : Heap α ε ρ) : Nat → Reading α ε ρ
  | 0 => ⟨fun _ => none, fun _ => none⟩
  | depth + 1 =>
    { force := fun recipe => (recipe.unfold base).read (readings routines base depth)
      call := fun routine => (routines routine).read (readings routines base depth) [] }

namespace Reading

/-- What the first of two readings knows the second one knows too. -/
structure Below (first second : Reading α ε ρ) : Prop where
  /-- About recipes. -/
  force : ∀ {recipe : Recipe α ε ρ} {made : Unshared α ε ρ},
    first.force recipe = some made → second.force recipe = some made
  /-- About routines. -/
  call : ∀ {routine : ρ} {made : Unshared α ε ρ},
    first.call routine = some made → second.call routine = some made

/-- Every reading knows what it knows. -/
theorem Below.refl (reading : Reading α ε ρ) : reading.Below reading := ⟨id, id⟩

/-- Knowing more is transitive. -/
theorem Below.trans {first second third : Reading α ε ρ} (before : first.Below second)
    (after : second.Below third) : first.Below third :=
  ⟨fun made => after.force (before.force made), fun made => after.call (before.call made)⟩

/-- Each of some readings knows at least what those before it know. -/
def Rising (chain : Nat → Reading α ε ρ) : Prop :=
  ∀ {first second : Nat}, first ≤ second → (chain first).Below (chain second)

/-- What some entry of a sequence is, if any is there. -/
noncomputable def eventually {γ : Type} (entries : Nat → Option γ) : Option γ :=
  open Classical in
  if known : ∃ index, (entries index).isSome then entries (Nat.find known) else none

/-- The reading that knows what some of the readings know. -/
noncomputable def limit (chain : Nat → Reading α ε ρ) : Reading α ε ρ where
  force recipe := eventually fun index => (chain index).force recipe
  call routine := eventually fun index => (chain index).call routine

/-- Where later entries only repeat earlier ones, the limit is what some entry is. -/
theorem eventually_eq_some {γ : Type} {entries : Nat → Option γ}
    (rising : ∀ {first second : Nat} {made : γ}, first ≤ second →
      entries first = some made → entries second = some made) {made : γ} :
    eventually entries = some made ↔ ∃ index, entries index = some made := by
  classical
  unfold eventually
  by_cases known : ∃ index, (entries index).isSome
  · rw [dif_pos known]
    constructor
    · exact fun found => ⟨_, found⟩
    · rintro ⟨index, found⟩
      have earliest : Nat.find known ≤ index :=
        Nat.find_min' known (by rw [found]; rfl)
      obtain ⟨other, earlier⟩ := Option.isSome_iff_exists.mp (Nat.find_spec known)
      have same : some other = some made := (rising earliest earlier).symm.trans found
      rw [earlier, same]
  · rw [dif_neg known]
    constructor
    · exact fun impossible => nomatch impossible
    · rintro ⟨index, found⟩
      exact absurd ⟨index, by rw [found]; rfl⟩ known

variable {chain : Nat → Reading α ε ρ}

/-- The limit knows of a recipe what some of the readings know. -/
theorem limit_force (rising : Rising chain) {recipe : Recipe α ε ρ} {made : Unshared α ε ρ} :
    (limit chain).force recipe = some made ↔
      ∃ index, (chain index).force recipe = some made :=
  eventually_eq_some fun before => (rising before).force

/-- The limit knows of a routine what some of the readings know. -/
theorem limit_call (rising : Rising chain) {routine : ρ} {made : Unshared α ε ρ} :
    (limit chain).call routine = some made ↔
      ∃ index, (chain index).call routine = some made :=
  eventually_eq_some fun before => (rising before).call

/-- Each of the readings is below the limit. -/
theorem below_limit (rising : Rising chain) (index : Nat) :
    (chain index).Below (limit chain) :=
  ⟨fun found => (limit_force rising).mpr ⟨index, found⟩,
    fun found => (limit_call rising).mpr ⟨index, found⟩⟩

/-- A value that is read: a reading that knows more keeps it, and what a limit gives one of the
approximating readings gives already. -/
structure Gradual {γ : Type} (value : Reading α ε ρ → Option γ) : Prop where
  /-- A reading that knows more gives the same. -/
  keep : ∀ {first second : Reading α ε ρ} {made : γ}, first.Below second →
    value first = some made → value second = some made
  /-- A limit gives nothing that none of the readings gives. -/
  reach : ∀ {chain : Nat → Reading α ε ρ} {made : γ}, Rising chain →
    value (limit chain) = some made → ∃ index, value (chain index) = some made

/-- A value that does not depend on the reading is read. -/
theorem Gradual.constant {γ : Type} (made : Option γ) :
    Gradual fun _ : Reading α ε ρ => made :=
  ⟨fun _ found => found, fun _ found => ⟨0, found⟩⟩

/-- What a recipe makes is read. -/
theorem Gradual.force (recipe : Recipe α ε ρ) :
    Gradual fun reading : Reading α ε ρ => reading.force recipe :=
  ⟨fun below found => below.force found, fun rising found => (limit_force rising).mp found⟩

/-- What a routine makes is read. -/
theorem Gradual.call (routine : ρ) :
    Gradual fun reading : Reading α ε ρ => reading.call routine :=
  ⟨fun below found => below.call found, fun rising found => (limit_call rising).mp found⟩

/-- What is read after something read is read. -/
theorem Gradual.bind {γ γ' : Type} {value : Reading α ε ρ → Option γ}
    {next : Reading α ε ρ → γ → Option γ'} (first : Gradual value)
    (second : ∀ made, Gradual fun reading => next reading made) :
    Gradual fun reading => do
      let made ← value reading
      next reading made where
  keep below found := by
    obtain ⟨middle, before, after⟩ := Option.bind_eq_some_iff.mp found
    exact Option.bind_eq_some_iff.mpr
      ⟨middle, first.keep below before, (second middle).keep below after⟩
  reach := by
    intro chain made rising found
    obtain ⟨middle, before, after⟩ := Option.bind_eq_some_iff.mp found
    obtain ⟨here, before⟩ := first.reach rising before
    obtain ⟨there, after⟩ := (second middle).reach rising after
    have upHere : (chain here).Below (chain (max here there)) := rising (Nat.le_max_left _ _)
    have upThere : (chain there).Below (chain (max here there)) := rising (Nat.le_max_right _ _)
    exact ⟨max here there, Option.bind_eq_some_iff.mpr
      ⟨middle, first.keep upHere before, (second middle).keep upThere after⟩⟩

/-- A merge is read. -/
theorem Gradual.mergeWith (first : Unshared α ε ρ) (second : Recipe α ε ρ) :
    Gradual fun reading : Reading α ε ρ => first.mergeWith reading second := by
  cases first with
  | empty => exact .force second
  | cons head tail => exact .constant _
  | suspended content => exact .constant _

/-- A flat map is read where its body is. -/
theorem Gradual.mapcatWith (body : α → Plan α ε ρ) (scope : List (Unshared α ε ρ))
    {apply : Reading α ε ρ → α → Option (Unshared α ε ρ)}
    (applied : ∀ value, Gradual fun reading => apply reading value) (source : Unshared α ε ρ) :
    Gradual fun reading => source.mapcatWith reading body scope (apply reading) := by
  cases source with
  | empty => exact .constant _
  | cons head tail =>
    refine (applied head).bind fun first => ?_
    cases first with
    | empty => exact .constant _
    | cons => exact .mergeWith _ _
    | suspended => exact .mergeWith _ _
  | suspended content => exact .constant _

/-- A step along a stream is read. -/
theorem Gradual.step (stream : Unshared α ε ρ) :
    Gradual fun reading : Reading α ε ρ => stream.step reading := by
  cases stream with
  | empty => exact .constant _
  | cons head tail => exact .force tail
  | suspended content => exact .force content

/-- What a plan makes is read. -/
theorem Gradual.plan (plan : Plan α ε ρ) (scope : List (Unshared α ε ρ)) :
    Gradual fun reading => plan.read reading scope := by
  induction plan generalizing scope with
  | empty | unit | lazy | cons | suspend | ref | knot | fail => exact .constant _
  | ready content readContent => exact (readContent scope).bind fun _ => .constant _
  | merge left right readLeft readRight =>
    exact (readLeft scope).bind fun first => (readRight scope).bind fun second =>
      .mergeWith first _
  | mapcat source body readSource readBody =>
    exact (readSource scope).bind fun stream =>
      .mapcatWith body scope (fun value => readBody value scope) stream
  | share stream body readStream readBody =>
    exact (readStream scope).bind fun shared => readBody (shared :: scope)
  | force stream readStream => exact (readStream scope).bind fun made => .step made
  | report event next readNext => exact readNext scope
  | computed plan readPlan => exact readPlan () scope
  | call routine => exact .call routine

/-- What an opened recipe makes is read. -/
theorem Gradual.recipe (recipe : Recipe α ε ρ) : Gradual recipe.read := by
  cases recipe with
  | cell | knot | known | pull => exact .constant _
  | plan content scope => exact .plan content scope
  | merge first second => exact (Gradual.force first).bind fun stream => .mergeWith stream second
  | mapcat source body scope =>
    exact (Gradual.force source).bind fun stream =>
      .mapcatWith body scope (fun value => .plan (body value) scope) stream

variable (routines : ρ → Plan α ε ρ) (base : Heap α ε ρ)

/-- A reading that follows recipes deeper knows more. -/
theorem readings_succ (depth : Nat) :
    (readings routines base depth).Below (readings routines base (depth + 1)) := by
  induction depth with
  | zero => exact ⟨fun found => (nomatch found), fun found => (nomatch found)⟩
  | succ depth below =>
    exact ⟨fun found => (Gradual.recipe _).keep below found,
      fun found => (Gradual.plan _ []).keep below found⟩

/-- The readings to the depths know more and more. -/
theorem readings_rising : Rising (readings routines base) := by
  intro first second before
  induction before with
  | refl => exact .refl _
  | step _ below => exact below.trans (readings_succ routines base _)

/-- A reading that follows recipes and routines to the end. -/
structure Fixed (routines : ρ → Plan α ε ρ) (base : Heap α ε ρ) (reading : Reading α ε ρ) :
    Prop where
  /-- A recipe makes what it makes once opened. -/
  force : ∀ recipe : Recipe α ε ρ, reading.force recipe = (recipe.unfold base).read reading
  /-- A routine makes what its plan makes. -/
  call : ∀ routine : ρ, reading.call routine = (routines routine).read reading []

/-- What is known at one depth more is what is read at the depth, so the limits agree. -/
theorem eventually_eq_of_succ {γ : Type} {value : Reading α ε ρ → Option γ}
    (gradual : Gradual value) {chain : Nat → Reading α ε ρ} (rising : Rising chain)
    {entries : Nat → Option γ} (start : entries 0 = none)
    (next : ∀ depth, entries (depth + 1) = value (chain depth)) :
    eventually entries = value (limit chain) := by
  have growing : ∀ {first second : Nat} {made : γ}, first ≤ second →
      entries first = some made → entries second = some made := by
    intro first second made before found
    cases first with
    | zero => rw [start] at found; exact nomatch found
    | succ first =>
      cases second with
      | zero => exact absurd before (by omega)
      | succ second =>
        rw [next] at found ⊢
        exact gradual.keep (rising (by omega)) found
  apply Option.ext
  intro made
  rw [eventually_eq_some growing]
  constructor
  · rintro ⟨index, found⟩
    cases index with
    | zero => rw [start] at found; exact nomatch found
    | succ index =>
      rw [next] at found
      exact gradual.keep (below_limit rising index) found
  · intro found
    obtain ⟨index, found⟩ := gradual.reach rising found
    exact ⟨index + 1, (next index).trans found⟩

/-- The limit of the readings follows everything to the end. -/
theorem limit_fixed : Fixed routines base (limit (readings routines base)) where
  force _ := eventually_eq_of_succ (Gradual.recipe _) (readings_rising routines base) rfl
    fun _ => rfl
  call _ := eventually_eq_of_succ (Gradual.plan _ []) (readings_rising routines base) rfl
    fun _ => rfl

end Reading

end Relational
