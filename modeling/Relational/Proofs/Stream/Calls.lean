import Relational.Proofs.Stream.Consumption
import Relational.Proofs.Stream.Thrift

/-!
# Calls in the order of the values

A flat map goes along its source cell by cell. The cells that it has gone over are done, so what it
has found in them is what everybody finds there. At any time one cell at most is waiting to go on,
and as the work of a cell is done once at most, the function is applied to each value once, when the
flat map comes to it.
-/
namespace Relational

variable {α ε ρ : Type}

namespace Stream

/-- The first step of a stream. -/
def first : Stream α → Step α
  | empty => .finish
  | cons head _ => .value head
  | suspended _ => .tick

/-- The cell behind the first step of a stream. -/
def behind? : Stream α → Option CellId
  | empty => none
  | cons _ tail => some tail
  | suspended cell => some cell

end Stream

namespace Steps

/-- The values among steps are those among the first of them and those among the others. -/
theorem values_append (steps others : Steps α) :
    (steps ++ others).values = steps.values ++ others.values :=
  List.filterMap_append

/-- The first values among steps are the values among the first steps. -/
theorem exists_take_of_prefix {steps : Steps α} {values : List α}
    (first : values <+: steps.values) :
    ∃ count ≤ steps.length, Steps.values (steps.take count) = values := by
  obtain ⟨rest, same⟩ := first
  obtain ⟨before, after, rfl, rfl, _⟩ := List.filterMap_eq_append_iff.mp same.symm
  refine ⟨before.length, ?_, ?_⟩
  · rw [List.length_append]
    exact Nat.le_add_right _ _
  · rw [List.take_left]
    rfl

end Steps

/-- From one stream to another lead these steps, over cells that are done. -/
inductive Heap.Along (heap : Heap α ε ρ) : Stream α → Steps α → Stream α → Prop where
  /-- No steps lead from a stream to itself. -/
  | here (stream : Stream α) : Along heap stream [] stream
  /-- The cell behind the first step holds the stream from which the others lead on. -/
  | step {stream next last : Stream α} {cell : CellId} {steps : Steps α}
    (behind : stream.behind? = some cell) (known : heap.status? cell = some (.done next))
    (others : Along heap next steps last) : Along heap stream (stream.first :: steps) last

namespace Heap

variable {heap after : Heap α ε ρ} {origin last next : Stream α} {steps : Steps α} {cell : CellId}

/-- Steps lead on where the cell behind the last stream is done. -/
theorem Along.snoc (along : heap.Along origin steps last) (behind : last.behind? = some cell)
    (known : heap.status? cell = some (.done next)) :
    heap.Along origin (steps ++ [last.first]) next := by
  induction along with
  | here stream => exact .step behind known (.here next)
  | step behind' known' _ others => exact .step behind' known' (others behind)

/-- Steps over cells that are done lead to the same stream as long as these are done. -/
theorem Along.mono (along : heap.Along origin steps last)
    (keep : ∀ {cell stream}, heap.status? cell = some (.done stream) →
      after.status? cell = some (.done stream)) : after.Along origin steps last := by
  induction along with
  | here stream => exact .here stream
  | step behind known _ others => exact .step behind (keep known) others

/-- A cell that is there keeps its status where another one is made. -/
theorem status?_push {status : Status α} (made : Cell α ε ρ)
    (known : heap.status? cell = some status) : (heap.push made).status? cell = some status := by
  obtain ⟨work, found⟩ := exists_of_status? known
  rw [status?, getElem?_push, if_neg (Nat.ne_of_lt (lt_size_of_getElem? found)), found]
  rfl

/-- Whoever looks at a stream sees the steps that lead along it, and the first one behind them. -/
theorem Along.shows (routines : ρ → Plan α ε ρ) (along : heap.Along origin steps last)
    (count : Nat) (le : count ≤ steps.length + 1) :
    origin.Shows routines heap count ((steps ++ [last.first]).take count) := by
  refine ⟨1, heap, ?_⟩
  induction along generalizing count with
  | here stream =>
    match count, le with
    | 0, _ => rw [Stream.observe_zero, List.take_zero]
    | 1, _ => cases stream <;> rfl
  | @step stream next last cell steps behind known _ others =>
    match count, le with
    | 0, _ => rw [Stream.observe_zero, List.take_zero]
    | 1, _ => cases stream <;> rfl
    | count + 2, le =>
      obtain ⟨work, found⟩ := exists_of_status? known
      have forced : (handlers routines 1).force cell heap = .ok next heap := forceCell_done _ found
      have rest := others (count + 1) (Nat.le_of_succ_le_succ le)
      cases stream with
      | empty => exact nomatch behind
      | cons head tail =>
        cases behind
        exact Run.bind_eq_ok.mpr ⟨next, heap, forced, Run.bind_eq_ok.mpr ⟨_, heap, rest, rfl⟩⟩
      | suspended cell =>
        cases behind
        exact Run.bind_eq_ok.mpr ⟨next, heap, forced, Run.bind_eq_ok.mpr ⟨_, heap, rest, rfl⟩⟩

end Heap

/-- The function has been applied to the values among the steps that lead from the origin to the
last stream and the first step of that one, and what is waiting does not call it, but for what is
pending. -/
structure Heap.Tallies (marking : Marking α ε) (origin : Stream α) (steps : Steps α)
    (last : Stream α) (pending : CellId → Work α ε ρ → Prop) (heap : Heap α ε ρ) : Prop where
  /-- The steps lead along the origin. -/
  along : heap.Along origin steps last
  /-- The function has been applied to their values. -/
  calls : marking.calls heap = Steps.values (steps ++ [last.first])
  /-- The work of others does not call it. -/
  waits : ∀ {cell work}, heap.cells[cell]? = some ⟨work, .waiting⟩ →
    work.Reports marking.Other ∨ pending cell work

variable {marking : Marking α ε} {origin last : Stream α} {steps : Steps α}
  {pending : CellId → Work α ε ρ → Prop} {heap : Heap α ε ρ}

namespace Heap

/-- What the function has been applied to stays so where ordinary work is done. -/
theorem Tallies.stable : Heap.Stable (fun _ => True) marking.Other
    (Heap.Tallies marking origin steps last pending) where
  fresh _ := trivial
  defer tallies reports _ := by
    refine ⟨tallies.along.mono (status?_push _), tallies.calls, fun found => ?_⟩
    rcases cases_of_push found with ⟨_, same⟩ | found
    · cases same
      exact .inl reports
    · exact tallies.waits found
  known tallies _ := by
    refine ⟨tallies.along.mono (status?_push _), tallies.calls, fun found => ?_⟩
    rcases cases_of_push found with ⟨_, impossible⟩ | found
    · cases impossible
    · exact tallies.waits found
  record tallies other :=
    ⟨tallies.along.mono id, (calls_other _ other).trans tallies.calls, tallies.waits⟩
  start {heap cell work} tallies waiting := by
    refine ⟨tallies.along.mono (Lives.start waiting).course.done, ?_, fun found => ?_⟩
    · rw [Marking.calls, events_start, ← Marking.calls, tallies.calls]
    · rcases cases_of_mark found with ⟨_, impossible, _⟩ | found
      · cases impossible
      · exact tallies.waits found
  finish {heap cell stream} tallies running _ := by
    obtain ⟨work, found⟩ := exists_of_status? running
    have course : heap.Course (heap.mark cell (.done stream)) := .single (.finish found rfl)
    refine ⟨tallies.along.mono course.done, tallies.calls, fun found => ?_⟩
    rcases cases_of_mark found with ⟨_, impossible, _⟩ | found
    · cases impossible
    · exact tallies.waits found
  content _ _ _ := Stream.refers_of_all (fun _ => trivial) _

/-- Where nothing is pending no work that is waiting calls the function. -/
theorem Tallies.reports (tallies : heap.Tallies marking origin steps last fun _ _ => False) :
    heap.Reports marking.Other :=
  fun found => (tallies.waits found).resolve_right id

/-- Where nothing is pending everything keeps what the function has been applied to. -/
theorem keep_tallies {routines : ρ → Plan α ε ρ}
    (report : ∀ routine, (routines routine).Reports marking.Other) (bound : Nat) :
    (handlers routines bound).Keep (fun _ => True)
      (Heap.Tallies marking origin steps last fun _ _ => False) :=
  Tallies.stable.keep_handlers report
    (fun tallies _ found => ⟨tallies.reports found, Work.refers_of_all (fun _ => trivial) _⟩) bound

end Heap

/-- What a cell was forced to it holds, unless there is no such cell. -/
theorem status?_of_force {routines : ρ → Plan α ε ρ} {bound : Nat} {cell : CellId}
    {made : Stream α} {after : Heap α ε ρ}
    (ran : (handlers routines bound).force cell heap = .ok made after) :
    made = .empty ∨ after.status? cell = some (.done made) := by
  cases bound with
  | zero => exact nomatch ran
  | succ bound =>
    have ran : forceCell (handlers routines bound) cell heap = .ok made after := ran
    rcases found : heap.cells[cell]? with _ | ⟨work, _ | _ | stream⟩
    · rw [forceCell_missing _ found] at ran
      cases ran
      exact .inl rfl
    · exact .inr ((Heap.startsOnce routines bound found).finished ran).1
    · rw [forceCell_running _ found] at ran
      exact nomatch ran
    · rw [forceCell_done _ found] at ran
      cases ran
      exact .inr (Heap.status?_eq found)

section Mapping

variable (marking) (body : α → Plan α ε ρ) (origin : Stream α)

/-- The cell is the one that goes on with the values behind a stream. -/
def Resumes (next : CellId) (last : Stream α) (cell : CellId) (work : Work α ε ρ) : Prop :=
  cell = next ∧ ∃ source scope, last.behind? = some source ∧
    work = .mapcat source (marking.applied body) scope

/-- The function has been applied to the values that the flat map has come to, one after another,
and one cell at most goes on from there. -/
def Heap.Tallied (heap : Heap α ε ρ) : Prop :=
  ∃ place : Steps α × Stream α × CellId,
    heap.Tallies marking origin place.1 place.2.1 (Resumes marking body place.2.2 place.2.1)

variable {marking body origin}

/-- Where nothing is pending nothing has to go on. -/
theorem Heap.Tallies.tallied (tallies : heap.Tallies marking origin steps last fun _ _ => False) :
    heap.Tallied marking body origin :=
  ⟨⟨steps, last, 0⟩, tallies.along, tallies.calls, fun found => .inl (tallies.reports found)⟩

/-- The cell is made that goes on. -/
theorem Heap.Tallies.push (tallies : heap.Tallies marking origin steps last fun _ _ => False)
    {source : CellId} (behind : last.behind? = some source) (scope : List (Stream α)) :
    (heap.push ⟨.mapcat source (marking.applied body) scope, .waiting⟩).Tallied marking body
      origin := by
  refine ⟨⟨steps, last, heap.cells.size⟩, tallies.along.mono (status?_push _), tallies.calls,
    fun found => ?_⟩
  rcases cases_of_push found with ⟨here, same⟩ | found
  · cases same
    exact .inr ⟨here, source, scope, behind, rfl⟩
  · exact .inl (tallies.reports found)

/-- While the cell that goes on is under way nothing is pending. -/
theorem Heap.Tallies.start {cell : CellId} {work : Work α ε ρ}
    (tallies : heap.Tallies marking origin steps last (Resumes marking body cell last))
    (waiting : heap.cells[cell]? = some ⟨work, .waiting⟩) :
    (heap.start cell).Tallies marking origin steps last fun _ _ => False := by
  have started := Tallies.stable.start tallies waiting
  refine ⟨started.along, started.calls, fun {other work} found => .inl ?_⟩
  refine (started.waits found).resolve_right ?_
  rintro ⟨rfl, _⟩
  have running := status?_start (lt_size_of_getElem? waiting)
  rw [status?_eq found] at running
  exact nomatch running

/-- The function has been applied as it should where ordinary work is done. -/
theorem Heap.Tallied.stable :
    Heap.Stable (fun _ => True) marking.Other (Heap.Tallied (ρ := ρ) marking body origin) :=
  .exists fun _ => Tallies.stable

variable {routines : ρ → Plan α ε ρ}
  (report : ∀ routine, (routines routine).Reports marking.Other)
  (silent : ∀ value, (body value).Reports marking.Other)

include report silent

/-- Where the flat map comes to a stream, it applies the function to the value at the front, if
there is one, and puts off what is behind it. -/
theorem leaves_mapcatWith {bound : Nat}
    (keep : (handlers routines bound).Keep (fun _ => True) (Heap.Tallied marking body origin))
    {source : Stream α} (along : heap.Along origin steps source)
    (calls : marking.calls heap = steps.values) (reports : heap.Reports marking.Other)
    (scope : List (Stream α)) :
    (source.mapcatWith (handlers routines bound) (marking.applied body) scope fun value =>
      (marking.applied body value).eval (handlers routines bound) scope).Leaves
        (Heap.Tallied marking body origin) (Stream.Refers fun _ => True) heap := by
  have none : Steps.values [source.first] = [] →
      heap.Tallies marking origin steps source fun _ _ => False := by
    intro none
    refine ⟨along, ?_, fun found => .inl (reports found)⟩
    rw [calls, Steps.values_append, none, List.append_nil]
  cases source with
  | empty => exact .of_ok rfl (none rfl).tallied trivial
  | suspended cell => exact .of_ok rfl ((none rfl).push rfl scope) trivial
  | cons head tail =>
    have called : (heap.withTrace (heap.trace.push (.reported (marking.mark head)))).Tallies marking
        origin steps (.cons head tail) fun _ _ => False := by
      refine ⟨along.mono id, ?_, fun found => .inl (reports found)⟩
      rw [Heap.calls_mark, calls, Steps.values_append]
      rfl
    have all : ∀ stream : Stream α, stream.Refers fun _ => True :=
      fun stream => stream.refers_of_all fun _ => trivial
    have applied := Heap.Tallies.stable.keeps_plan (Heap.keep_tallies report bound) (silent head)
      (fun stream (_ : stream ∈ scope) => all stream) _ called
    refine .of_eq (mapcatWith_applied marking body _ scope head tail heap) ?_
    refine applied.bind Heap.Tallies.tallied fun {first after} _ tallies => ?_
    have deferred : (Run.defer (.mapcat tail (marking.applied body) scope)).Leaves
        (Heap.Tallied marking body origin) (fun _ => True) after :=
      .of_ok rfl (tallies.push rfl scope) trivial
    refine deferred.bind id fun {rest last} _ tallied => ?_
    exact Heap.Tallied.stable.keeps_before keep (all first) trivial last tallied

/-- Where the cell that goes on is forced, it applies the function to the next value, if there is
one. -/
theorem leaves_resume {bound : Nat}
    (keep : (handlers routines bound).Keep (fun _ => True) (Heap.Tallied marking body origin))
    {cell source : CellId} {scope : List (Stream α)}
    (tallies : heap.Tallies marking origin steps last (Resumes marking body cell last))
    (behind : last.behind? = some source)
    (waiting : heap.cells[cell]? = some ⟨.mapcat source (marking.applied body) scope, .waiting⟩) :
    (forceCell (handlers routines bound) cell).Leaves (Heap.Tallied marking body origin)
      (Stream.Refers fun _ => True) heap := by
  refine Heap.Tallied.stable.leaves_of_work (handlers_last routines bound) waiting ?_
  have started := tallies.start waiting
  have forced : ((handlers routines bound).force source).Leaves
      (Heap.Tallies marking origin steps last fun _ _ => False) (Stream.Refers fun _ => True)
      (heap.start cell) := (Heap.keep_tallies report bound).force trivial _ started
  have kept := forced.kept
  show ((handlers routines bound).force source >>= fun stream =>
    stream.mapcatWith (handlers routines bound) (marking.applied body) scope fun value =>
      (marking.applied body value).eval (handlers routines bound) scope :
        Run α ε ρ (Stream α)).Leaves _ _ _
  cases ran : (handlers routines bound).force source (heap.start cell) with
  | error stop after =>
    rw [ran] at kept
    exact .of_error (Run.bind_of_error ran) (Heap.Tallies.tallied kept)
  | ok stream after =>
    rw [ran] at kept
    have kept : after.Tallies marking origin steps last fun _ _ => False := kept
    obtain rfl | known := status?_of_force ran
    · exact .of_eq (Run.bind_of_ok ran) (.of_ok rfl kept.tallied trivial)
    · exact .of_eq (Run.bind_of_ok ran)
        (leaves_mapcatWith report silent keep (kept.along.snoc behind known) kept.calls kept.reports
          scope)

/-- Everything keeps it so that the function has been applied to the values that the flat map has
come to, one after another. Work that is not ordinary is that of the one cell that goes on. -/
theorem keep_tallied (bound : Nat) :
    (handlers routines bound).Keep (fun _ => True) (Heap.Tallied marking body origin) := by
  have all : ∀ stream : Stream α, stream.Refers fun _ => True :=
    fun stream => stream.refers_of_all fun _ => trivial
  have stable : Heap.Stable (fun _ => True) marking.Other (Heap.Tallied marking body origin) :=
    Heap.Tallied.stable
  induction bound with
  | zero => exact ⟨fun _ => .throw _, fun _ => .throw _⟩
  | succ bound keep =>
    refine ⟨fun {cell} _ heap tallied => ?_, fun routine => ?_⟩
    · by_cases ordinary : ∀ {work}, heap.cells[cell]? = some ⟨work, .waiting⟩ →
          work.Reports marking.Other
      · exact stable.leaves_forceCell keep (handlers_last routines bound) tallied trivial
          fun found => ⟨ordinary found, Work.refers_of_all (fun _ => trivial) _⟩
      · push Not at ordinary
        obtain ⟨work, waiting, calls⟩ := ordinary
        obtain ⟨⟨steps, last, next⟩, tallies⟩ := tallied
        obtain ⟨rfl, source, scope, behind, rfl⟩ := (tallies.waits waiting).resolve_left calls
        exact leaves_resume report silent keep tallies behind waiting
    · exact stable.keeps_plan keep (report routine) fun stream _ => all stream

end Mapping

/-- What the function has been applied to at a moment are the first values of the origin. -/
theorem Heap.Tallied.begins (tallied : heap.Tallied marking body origin)
    (routines : ρ → Plan α ε ρ) {moment : List ε} (early : moment <+: heap.events) :
    origin.Begins routines heap (marking.among moment) := by
  obtain ⟨⟨steps, last, next⟩, along, calls, _⟩ := tallied
  have first : marking.among moment <+: marking.calls heap := early.filterMap marking.unmark
  rw [calls] at first
  obtain ⟨count, le, same⟩ := Steps.exists_take_of_prefix first
  rw [List.length_append, List.length_singleton] at le
  exact ⟨count, _, along.shows routines count le, same⟩

namespace Session

variable {session late : Session α ε ρ} {routines : ρ → Plan α ε ρ} {bound : Nat}

/-- A stream shows the same before and after actions that are not given up. -/
theorem Follows.shows_iff {recipe : CellId → Recipe α ε ρ}
    (follows : session.Follows routines recipe) {actions : List (Action α ε ρ)}
    {responses : List (Response α)}
    (performed : session.performAll routines bound actions = (responses, late))
    (calm : Calm responses) (number : Nat) {count : Nat} {steps : Steps α} :
    (session.stream number).Shows routines late.heap count steps ↔
      (session.stream number).Shows routines session.heap count steps := by
  obtain ⟨recipe', passes⟩ := follows.passes_all performed calm
  have within := follows.within.stream trivial number
  rw [Stream.shows_iff follows.undisturbed follows.realizes within,
    Stream.shows_iff passes.follows.undisturbed passes.follows.realizes
      (within.mono passes.grows.size), within.unshared_eq passes.grows.keep]

section Tallying

variable (report : ∀ routine, (routines routine).Reports marking.Other)

include report

/-- Where no action calls the function it has not been called. -/
theorem nest_performAll (bound : Nat) {actions : List (Action α ε ρ)} (body : α → Plan α ε ρ)
    (reports : ∀ action ∈ actions, action.Reports marking.Other) :
    (performAll routines bound actions empty).2.heap.Nest marking body (fun _ => False) [] := by
  have nothing : (Heap.empty : Heap α ε ρ).Reports marking.Other := by
    intro cell work found
    exact nomatch found
  exact kept_performAllWith Heap.Nest.stable (handlers_keep_nest report bound) (fun _ => id) bound
    reports (Heap.nest_none nothing)

/-- Where a stream is mapped and no action before or after calls the function itself, it has been
applied to the values that the flat map has come to. -/
theorem tallied_performAll {body : α → Plan α ε ρ}
    (silent : ∀ value, (body value).Reports marking.Other)
    (nest : session.heap.Nest marking body (fun _ => False) []) (number : Nat)
    {actions : List (Action α ε ρ)}
    (reports : ∀ action ∈ actions, action.Reports marking.Other) :
    (performAll routines bound actions (session.perform routines bound
      (.make (.mapcat (.ref number) (marking.applied body)))).2).2.heap.Tallied marking body
        (session.stream number) := by
  have keep : (handlers routines bound).Keep (fun _ => True)
      (Heap.Tallied marking body (session.stream number)) := keep_tallied report silent bound
  refine kept_performAllWith Heap.Tallied.stable keep (fun _ => trivial) bound reports ?_
  have mapped := leaves_mapcatWith report silent keep (.here (session.stream number)) nest.calls
    (fun found => (nest.outside id found).1) session.streams.toList
  have made : (Plan.mapcat (.ref number) (marking.applied body)).eval (handlers routines bound)
      session.streams.toList session.heap = (session.stream number).mapcatWith
        (handlers routines bound) (marking.applied body) session.streams.toList (fun value =>
          (marking.applied body value).eval (handlers routines bound) session.streams.toList)
            session.heap := by
    rw [← getD_streams]
    rfl
  exact kept_keep (.of_eq made mapped)

end Tallying

/-- A flat map calls its function once for each value of the source, in their order, and only where
it is asked for more. Whatever is done with the source, with the flat map and with clones of both,
by however many consumers, and whatever any of it comes to, the values that the function has been
applied to at a moment are first values of the source, each of them once; if nothing is given up
these are first values of the source as it was before it was mapped. And from building the flat map
and taking so many steps along it come at most as many calls and one more, however many of them have
made the empty stream. -/
theorem mapcat_calls_in_order (marking : Marking α ε) (routines : ρ → Plan α ε ρ)
    (body : α → Plan α ε ρ) (report : ∀ routine, (routines routine).Reports marking.Other)
    (silent : ∀ value, (body value).Reports marking.Other) :
    (∀ (bound : Nat) (building after : List (Action α ε ρ)) (number : Nat),
      (∀ action ∈ building, action.Reports marking.Other) →
      (∀ action ∈ after, action.Reports marking.Other) →
        let built := performAll routines bound building empty
        let mapped := built.2.perform routines bound
          (.make (.mapcat (.ref number) (marking.applied body)))
        let late := performAll routines bound after mapped.2
        ∀ moment, moment <+: late.2.heap.events →
          (built.2.stream number).Begins routines late.2.heap (marking.among moment) ∧
            (Calm (built.1 ++ mapped.1 :: late.1) →
              (built.2.stream number).Begins routines built.2.heap (marking.among moment))) ∧
    ∀ (bound moves : Nat) {heap : Heap α ε ρ} {source : Stream α} {scope : List (Stream α)},
      heap.Closed → heap.Reports marking.Other → source.Within heap.cells.size →
      (∀ stream ∈ scope, stream.Within heap.cells.size) →
        (marking.calls (Run.left ((do
          let mapped ← source.mapcatWith (handlers routines bound) (marking.applied body) scope
            fun value => (marking.applied body value).eval (handlers routines bound) scope
          mapped.advance (handlers routines bound) moves : Run α ε ρ (Stream α)) heap))).length ≤
            (marking.calls heap).length + (moves + 1) := by
  refine ⟨fun bound building after number reports reports' => ?_, fun bound moves {_ _ _} closed
    reports there within => calls_mapcat_le report silent bound moves closed reports there within⟩
  intro built mapped late moment early
  have nest := nest_performAll report bound body reports
  have begins := (tallied_performAll report silent nest number reports').begins routines early
  refine ⟨begins, fun calm => ?_⟩
  obtain ⟨calm, calm'⟩ := List.forall_mem_append.mp calm
  obtain ⟨recipe, passes⟩ := (Follows.empty routines).passes_all rfl calm
  obtain ⟨count, steps, shows, same⟩ := begins
  exact ⟨count, steps, (passes.follows.shows_iff (performAll_cons _) calm' number).mp shows, same⟩

section Halves

/-- A call is told by its value, and everything else is reported without one. -/
def told : Marking Nat (Option Nat) := ⟨some, id, fun _ => rfl⟩

/-- One to four, and whenever one of them is asked for that is reported. -/
def four : Source Nat (Option Nat) := ⟨fun position => [1, 2, 3, 4][position]?, fun _ => [none]⟩

/-- The half of an even value; nothing is made of an odd one. -/
def half (value : Nat) : Plan Nat (Option Nat) Empty :=
  if value % 2 = 0 then .unit (value / 2) else .empty

/-- A flat map is cloned, both it and the clone are forced, and the first value is pulled. -/
def looks : List (Action Nat (Option Nat) Empty) :=
  [.make (.ref 1), .force 1, .force 2, .iterate 3, .pull 0]

/-- There are no routines. -/
def unneeded : Empty → Plan Nat (Option Nat) Empty := nofun

/-- The source is made. -/
def fourMade : List (Response Nat) × Session Nat (Option Nat) Empty :=
  performAll unneeded 9 [.make (.lazy four)] empty

/-- It is mapped. -/
def fourHalved : Response Nat × Session Nat (Option Nat) Empty :=
  fourMade.2.perform unneeded 9 (.make (.mapcat (.ref 0) (told.applied half)))

/-- The flat map is looked at. -/
def fourSeen : List (Response Nat) × Session Nat (Option Nat) Empty :=
  performAll unneeded 9 looks fourHalved.2

/-- One value is halved where the flat map is built and another one where it is forced, and none
where its clone is forced or where the half is pulled. -/
theorem halves_called_once :
    told.calls fourHalved.2.heap = [1] ∧ told.calls fourSeen.2.heap = [1, 2] ∧
      (fourMade.2.stream 0).Begins unneeded fourMade.2.heap [1, 2] ∧
        ∀ bound moves, (told.calls (Run.left ((do
          let mapped ← (fourMade.2.stream 0).mapcatWith (handlers unneeded bound)
            (told.applied half) [] fun value =>
              (told.applied half value).eval (handlers unneeded bound) []
          mapped.advance (handlers unneeded bound) moves :
            Run Nat (Option Nat) Empty (Stream Nat)) fourMade.2.heap))).length ≤ moves + 1 := by
  have silent : ∀ value, (half value).Reports told.Other := by
    intro value
    unfold half
    split <;> trivial
  have building : ∀ action ∈ [(.make (.lazy four) : Action Nat (Option Nat) Empty)],
      action.Reports told.Other := by
    refine List.forall_mem_singleton.mpr fun position event member => ?_
    cases List.mem_singleton.mp member
    rfl
  have looking : ∀ action ∈ looks, action.Reports told.Other := by
    simp [looks, Action.Reports, Plan.Reports]
  have once : told.calls fourHalved.2.heap = [1] := by decide +kernel
  have twice : told.calls fourSeen.2.heap = [1, 2] := by decide +kernel
  have calm : Calm (fourMade.1 ++ fourHalved.1 :: fourSeen.1) := by decide +kernel
  obtain ⟨inOrder, onDemand⟩ := mapcat_calls_in_order told unneeded half nofun silent
  have begins :
      (fourMade.2.stream 0).Begins unneeded fourMade.2.heap (told.calls fourSeen.2.heap) :=
    (inOrder 9 _ looks 0 building looking _ List.prefix_rfl).2 calm
  obtain ⟨recipe, passes⟩ :=
    (Follows.empty unneeded).passes_all rfl (List.forall_mem_append.mp calm).1
  have nest : fourMade.2.heap.Nest told half (fun _ => False) [] :=
    nest_performAll nofun 9 half building
  have closed : fourMade.2.heap.Closed := passes.follows.realizes.closed
  have within : (fourMade.2.stream 0).Within fourMade.2.heap.cells.size :=
    passes.follows.within.stream trivial 0
  refine ⟨once, twice, twice ▸ begins, fun bound moves => ?_⟩
  have few := onDemand bound moves closed (fun found => (nest.outside id found).1) within
    (List.forall_mem_nil _)
  rw [nest.calls, List.length_nil, Nat.zero_add] at few
  exact few

end Halves

end Session

end Relational
