import Relational.Proofs.Stream.Keeping
import Relational.Proofs.Stream.Observation
import Relational.Stream.Steps

/-!
# Calls by the step

A flat map makes cells of its own, for what it puts off and for its merges, and no other cell knows
of them. So nothing that others do calls the function of the flat map. A cell of its own that goes
on with the source calls the function once at most, and what it makes then is not empty, whatever
the function has made. A merge looks at its second side only where the first side is empty, so the
first side has not called the function where the second one does. Hence forcing a cell calls the
function once at most, however deeply the merges are nested.
-/
namespace Relational

variable {α ε ρ : Type}

section Calls

variable {marking : Marking α ε}

/-- Calls among events are calls among the first of them and among the others. -/
theorem Marking.among_append (events others : List ε) :
    marking.among (events ++ others) = marking.among events ++ marking.among others :=
  List.filterMap_append

/-- What is no call is not among the calls. -/
theorem Marking.among_other {event : ε} (other : marking.Other event) :
    marking.among [event] = [] :=
  List.filterMap_cons_none other

/-- The event of a call is the call. -/
theorem Marking.among_mark (value : α) : marking.among [marking.mark value] = [value] :=
  List.filterMap_cons_some (marking.unmark_mark value)

namespace Heap

/-- An event that is reported is the last one. -/
theorem events_report (heap : Heap α ε ρ) (event : ε) :
    (heap.withTrace (heap.trace.push (.reported event))).events = heap.events ++ [event] := by
  simp only [events, withTrace, Array.toList_push, List.filterMap_append, List.filterMap_cons,
    List.filterMap_nil]

/-- Starting work reports nothing. -/
theorem events_start (heap : Heap α ε ρ) (cell : CellId) :
    (heap.start cell).events = heap.events := by
  simp only [events, start, mark, withTrace, Array.toList_push, List.filterMap_append,
    List.filterMap_cons, List.filterMap_nil, List.append_nil]

/-- What is no call calls nothing. -/
theorem calls_other (heap : Heap α ε ρ) {event : ε} (other : marking.Other event) :
    marking.calls (heap.withTrace (heap.trace.push (.reported event))) = marking.calls heap := by
  rw [Marking.calls, events_report, Marking.among_append, Marking.among_other other,
    List.append_nil, Marking.calls]

/-- A call is the last one. -/
theorem calls_mark (heap : Heap α ε ρ) (value : α) :
    marking.calls (heap.withTrace (heap.trace.push (.reported (marking.mark value)))) =
      marking.calls heap ++ [value] := by
  rw [Marking.calls, events_report, Marking.among_append, Marking.among_mark, Marking.calls]

end Heap

end Calls

/-- A stream that refers to free cells refers to other free cells, if these are those of the cells
that are there. -/
theorem Stream.Refers.imp_of_within {free free' : CellId → Prop} {size : Nat}
    (imp : ∀ cell < size, free cell → free' cell) {stream : Stream α}
    (refers : stream.Refers free) (within : stream.Within size) : stream.Refers free' := by
  cases stream with
  | empty => trivial
  | cons head tail => exact imp tail within refers
  | suspended cell => exact imp cell within refers

/-- Work that refers to free cells refers to other free cells, if these are those of the cells that
are there. -/
theorem Work.Refers.imp_of_within {free free' : CellId → Prop} {size : Nat}
    (imp : ∀ cell < size, free cell → free' cell) {work : Work α ε ρ}
    (refers : work.Refers free) (within : work.Within size) : work.Refers free' := by
  cases work with
  | known stream => exact Stream.Refers.imp_of_within imp refers within
  | plan content scope =>
    exact fun stream member => (refers stream member).imp_of_within imp (within stream member)
  | merge first second =>
    exact ⟨imp first within.1 refers.1, imp second within.2 refers.2⟩
  | mapcat source body scope =>
    exact ⟨imp source within.1 refers.1,
      fun stream member => (refers.2 stream member).imp_of_within imp (within.2 stream member)⟩
  | pull source position => trivial

/-- The cells that are not among those of a flat map. -/
abbrev Outside (own : CellId → Prop) (cell : CellId) : Prop := ¬ own cell

section Nests

variable (marking : Marking α ε) (body : α → Plan α ε ρ) (own : CellId → Prop)

/-- What a cell of a flat map is there for. -/
inductive Work.Maps : Work α ε ρ → Prop where
  /-- Two streams are merged, its own ones or those that the function has made. -/
  | merge (first second : CellId) : Maps (.merge first second)
  /-- It goes on with the values of a stream of others. -/
  | mapcat {source : CellId} {scope : List (Stream α)} (outside : ¬ own source)
    (inside : ∀ stream ∈ scope, stream.Refers (Outside own)) :
    Maps (.mapcat source (marking.applied body) scope)

/-- Some cells are those of a flat map, and no others know of them. -/
structure Heap.Nest (calls : List α) (heap : Heap α ε ρ) : Prop where
  /-- The function has been applied to these values. -/
  calls : marking.calls heap = calls
  /-- The cells of the flat map are there. -/
  there : ∀ {cell}, own cell → cell < heap.cells.size
  /-- If they are waiting, they wait for what the flat map puts off. -/
  inside : ∀ {cell work}, own cell → heap.cells[cell]? = some ⟨work, .waiting⟩ →
    work.Maps marking body own
  /-- The work that others wait for does not call the function. -/
  outside : ∀ {cell work}, ¬ own cell → heap.cells[cell]? = some ⟨work, .waiting⟩ →
    work.Reports marking.Other ∧ work.Refers (Outside own)
  /-- What others hold does not lead to the cells of the flat map. -/
  content : ∀ {cell work stream}, ¬ own cell → heap.cells[cell]? = some ⟨work, .done stream⟩ →
    stream.Refers (Outside own)

end Nests

variable {marking : Marking α ε} {body : α → Plan α ε ρ} {own : CellId → Prop} {calls : List α}
  {heap : Heap α ε ρ}

namespace Heap

/-- What is reported changes the calls only. -/
theorem Nest.withTrace (nest : heap.Nest marking body own calls)
    (trace : Array (Occurrence ε)) :
    (heap.withTrace trace).Nest marking body own (marking.calls (heap.withTrace trace)) :=
  ⟨rfl, nest.there, nest.inside, nest.outside, nest.content⟩

/-- A cell is moved on, to what does not lead to the cells of the flat map if it is not one of
them. -/
theorem Nest.mark (nest : heap.Nest marking body own calls) {cell : CellId} {status : Status α}
    (begun : status ≠ .waiting)
    (refers : ∀ stream, status = .done stream → ¬ own cell → stream.Refers (Outside own)) :
    (heap.mark cell status).Nest marking body own calls where
  calls := nest.calls
  there is := by
    rw [size_mark]
    exact nest.there is
  inside is found := by
    rcases cases_of_mark found with ⟨_, same, _⟩ | found
    · exact absurd same.symm begun
    · exact nest.inside is found
  outside is found := by
    rcases cases_of_mark found with ⟨_, same, _⟩ | found
    · exact absurd same.symm begun
    · exact nest.outside is found
  content is found := by
    rcases cases_of_mark found with ⟨rfl, same, _⟩ | found
    · exact refers _ same.symm is
    · exact nest.content is found

/-- The work of a cell is started. -/
theorem Nest.start (nest : heap.Nest marking body own calls) (cell : CellId) :
    (heap.start cell).Nest marking body own calls := by
  have marked : (heap.mark cell .running).Nest marking body own calls :=
    nest.mark (fun impossible => nomatch impossible) fun _ impossible => nomatch impossible
  have same : marking.calls (heap.start cell) = calls := by
    rw [Marking.calls, events_start, ← Marking.calls, nest.calls]
  exact same ▸ marked.withTrace _

/-- A cell of others is made. -/
theorem Nest.push (nest : heap.Nest marking body own calls) {made : Cell α ε ρ}
    (waiting : made.status = .waiting →
      made.work.Reports marking.Other ∧ made.work.Refers (Outside own))
    (done : ∀ stream, made.status = .done stream → stream.Refers (Outside own)) :
    (heap.push made).Nest marking body own calls where
  calls := nest.calls
  there is := by
    rw [size_push]
    exact Nat.lt_succ_of_lt (nest.there is)
  inside is found := by
    rcases cases_of_push found with ⟨rfl, _⟩ | found
    · exact absurd (nest.there is) (Nat.lt_irrefl _)
    · exact nest.inside is found
  outside is found := by
    rcases cases_of_push found with ⟨_, rfl⟩ | found
    · exact waiting rfl
    · exact nest.outside is found
  content is found := by
    rcases cases_of_push found with ⟨_, rfl⟩ | found
    · exact done _ rfl
    · exact nest.content is found

/-- Ordinary work of others does not call the function and leaves the cells of the flat map
alone. -/
theorem Nest.stable :
    Heap.Stable (Outside own) marking.Other (Heap.Nest (ρ := ρ) marking body own calls) where
  fresh nest is := Nat.lt_irrefl _ (nest.there is)
  defer nest reports refers :=
    nest.push (fun _ => ⟨reports, refers⟩) fun _ impossible => nomatch impossible
  known nest refers := by
    refine nest.push (fun impossible => nomatch impossible) fun stream same => ?_
    cases same
    exact refers
  record {heap event} nest other := by
    have traced := nest.withTrace (heap.trace.push (.reported event))
    rw [calls_other heap other, nest.calls] at traced
    exact traced
  start nest _ := nest.start _
  finish nest _ refers := by
    refine nest.mark (fun impossible => nomatch impossible) fun stream same _ => ?_
    cases same
    exact refers
  content nest is found := nest.content is found

/-- Before a flat map is built none of the cells are its own. -/
theorem nest_none (reports : heap.Reports marking.Other) :
    heap.Nest marking body (fun _ => False) (marking.calls heap) where
  calls := rfl
  there is := is.elim
  inside is := is.elim
  outside _ found := ⟨reports found, Work.refers_of_all (fun _ => id) _⟩
  content _ _ := Stream.refers_of_all (fun _ => id) _

/-- What does not lead to the cells of a flat map does not lead to one that it makes. -/
theorem outside_push (own : CellId → Prop) (size : Nat) :
    ∀ cell < size, Outside own cell → Outside (fun cell => own cell ∨ cell = size) cell :=
  fun _ less outside is => is.elim outside (Nat.ne_of_lt less)

/-- The flat map makes a cell of its own. -/
theorem Nest.push_own (nest : heap.Nest marking body own calls) (closed : heap.Closed)
    {work : Work α ε ρ} (maps : work.Maps marking body own)
    (within : work.Within heap.cells.size) :
    (heap.push ⟨work, .waiting⟩).Nest marking body
      (fun cell => own cell ∨ cell = heap.cells.size) calls := by
  have apart := outside_push own heap.cells.size
  have grow : ∀ {work : Work α ε ρ}, work.Within heap.cells.size → work.Maps marking body own →
      work.Maps marking body fun cell => own cell ∨ cell = heap.cells.size := by
    intro work within maps
    cases maps with
    | merge first second => exact .merge first second
    | mapcat outside inside =>
      exact .mapcat (apart _ within.1 outside) fun stream member =>
        (inside stream member).imp_of_within apart (within.2 stream member)
  constructor
  · exact nest.calls
  · rintro cell (is | rfl)
    · rw [size_push]
      exact Nat.lt_succ_of_lt (nest.there is)
    · rw [size_push]
      exact Nat.lt_succ_self _
  · rintro cell other is found
    rcases cases_of_push found with ⟨_, same⟩ | found
    · cases same
      exact grow within maps
    · have old := is.resolve_right (Nat.ne_of_lt (lt_size_of_getElem? found))
      exact grow (closed.work found) (nest.inside old found)
  · rintro cell other is found
    rcases cases_of_push found with ⟨last, _⟩ | found
    · exact absurd (.inr last) is
    · obtain ⟨reports, refers⟩ := nest.outside (fun old => is (.inl old)) found
      exact ⟨reports, refers.imp_of_within apart (closed.work found)⟩
  · rintro cell other stream is found
    rcases cases_of_push found with ⟨last, _⟩ | found
    · exact absurd (.inr last) is
    · exact (nest.content (fun old => is (.inl old)) found).imp_of_within apart
        (closed.content found)

end Heap

/-- Where a value is at the front of the source the call is reported, and then the function is
carried out as other plans are. -/
theorem mapcatWith_applied (marking : Marking α ε) (body : α → Plan α ε ρ)
    (handlers : Handlers α ε ρ) (scope : List (Stream α)) (head : α) (tail : CellId)
    (heap : Heap α ε ρ) :
    (Stream.cons head tail).mapcatWith handlers (marking.applied body) scope
        (fun value => (marking.applied body value).eval handlers scope) heap =
      (do
        let first ← (body head).eval handlers scope
        let rest ← Run.defer (.mapcat tail (marking.applied body) scope)
        first.before handlers rest : Run α ε ρ (Stream α))
          (heap.withTrace (heap.trace.push (.reported (marking.mark head)))) :=
  rfl

section Thrift

variable (marking body)

/-- What a run of a flat map comes to where it has called the function once more at most, and not at
all if it has come to the end. It may have made more cells that are its own. -/
def Thrifty (own : CellId → Prop) (calls : List α)
    (outcome : EStateM.Result Stop (Heap α ε ρ) (Stream α)) : Prop :=
  ∃ own' calls', (Run.left outcome).Nest marking body own' calls' ∧
    (∀ {cell}, own cell → own' cell) ∧ calls'.length ≤ calls.length + 1 ∧
      ∀ after, outcome = .ok .empty after → calls'.length ≤ calls.length

variable {marking body} {routines : ρ → Plan α ε ρ} {bound : Nat}

/-- A run that calls nothing is thrifty. -/
theorem Thrifty.of_nest {outcome : EStateM.Result Stop (Heap α ε ρ) (Stream α)}
    (nest : (Run.left outcome).Nest marking body own calls) :
    Thrifty marking body own calls outcome :=
  ⟨own, calls, nest, id, Nat.le_succ _, fun _ _ => Nat.le_refl _⟩

section Once

variable {own' : CellId → Prop} {calls' : List α} {after : Heap α ε ρ}
  (nest : after.Nest marking body own' calls') (more : ∀ {cell}, own cell → own' cell)
  (once : calls'.length ≤ calls.length + 1)

include nest more once

/-- A run is thrifty that calls the function once and does not come to the end. -/
theorem Thrifty.of_ok {made : Stream α} (goes : made ≠ .empty) :
    Thrifty marking body own calls (.ok made after) := by
  refine ⟨own', calls', nest, more, once, fun last ended => absurd ?_ goes⟩
  cases ended
  rfl

/-- A run is thrifty that calls the function once and is given up. -/
theorem Thrifty.of_error (stop : Stop) : Thrifty marking body own calls (.error stop after) :=
  ⟨own', calls', nest, more, once, fun _ ended => nomatch ended⟩

end Once

/-- A stream that has not come to its end is merged without forcing anything. -/
theorem mergeWith_eq_ok (handlers : Handlers α ε ρ) (closed : heap.Closed)
    (nest : heap.Nest marking body own calls) {first : Stream α} {second : CellId}
    (within : first.Within heap.cells.size) (there : second < heap.cells.size)
    (goes : first ≠ .empty) : ∃ made after, first.mergeWith handlers second heap = .ok made after ∧
      made ≠ .empty ∧
        after.Nest marking body (fun cell => own cell ∨ cell = heap.cells.size) calls := by
  cases first with
  | empty => exact absurd rfl goes
  | cons head tail =>
    exact ⟨_, _, rfl, (fun impossible => nomatch impossible),
      nest.push_own closed (.merge second tail) ⟨there, within⟩⟩
  | suspended cell =>
    exact ⟨_, _, rfl, (fun impossible => nomatch impossible),
      nest.push_own closed (.merge second cell) ⟨there, within⟩⟩

/-- The values behind the one that the function has been applied to are put off. -/
theorem mapcatWith_eq_ok (handlers : Handlers α ε ρ) (closed : heap.Closed)
    (nest : heap.Nest marking body own calls) {first : Stream α} {tail : CellId}
    {scope : List (Stream α)} (there : first.Within heap.cells.size)
    (behind : tail < heap.cells.size) (outside : ¬ own tail)
    (within : ∀ stream ∈ scope, stream.Within heap.cells.size)
    (inside : ∀ stream ∈ scope, stream.Refers (Outside own)) :
    ∃ own' made after, (do
      let rest ← Run.defer (.mapcat tail (marking.applied body) scope)
      first.before handlers rest : Run α ε ρ (Stream α)) heap = .ok made after ∧
        made ≠ .empty ∧ after.Nest marking body own' calls ∧ ∀ {cell}, own cell → own' cell := by
  have work : Work.Within heap.cells.size (.mapcat tail (marking.applied body) scope) :=
    ⟨behind, within⟩
  have rested := nest.push_own closed (.mapcat outside inside) work
  by_cases goes : first = .empty
  · subst goes
    exact ⟨_, _, _, rfl, (fun impossible => nomatch impossible), rested, .inl⟩
  · have more : heap.cells.size ≤
        (heap.push ⟨.mapcat tail (marking.applied body) scope, .waiting⟩).cells.size := by
      rw [Heap.size_push]
      exact Nat.le_succ _
    have closed : (heap.push ⟨.mapcat tail (marking.applied body) scope, .waiting⟩).Closed :=
      closed.push (work.mono (Nat.le_succ _)) fun _ impossible => nomatch impossible
    obtain ⟨made, after, merged, some, nest⟩ := mergeWith_eq_ok handlers closed rested
      (there.mono more) (by rw [Heap.size_push]; exact Nat.lt_succ_self _) goes
    refine ⟨_, made, after, ?_, some, nest, fun is => .inl (.inl is)⟩
    cases first with
    | empty => exact absurd rfl goes
    | cons => exact merged
    | suspended => exact merged

/-- Merging two cells calls the function once where forcing a cell does. The second one is forced
only if the first one has come to its end, and then the first one has not called the function. -/
theorem merge_thrifty
    (force : ∀ {own : CellId → Prop} {calls : List α} {heap : Heap α ε ρ} {cell : CellId},
      heap.Closed → heap.Nest marking body own calls → cell < heap.cells.size →
        Thrifty marking body own calls ((handlers routines bound).force cell heap))
    (closed : heap.Closed) (nest : heap.Nest marking body own calls) {first second : CellId}
    (there : first < heap.cells.size) (there' : second < heap.cells.size) :
    Thrifty marking body own calls ((do
      let stream ← (handlers routines bound).force first
      stream.mergeWith (handlers routines bound) second : Run α ε ρ (Stream α)) heap) := by
  obtain ⟨own', calls', nest, more, once, ends⟩ := force closed nest there
  rw [Run.bind_apply]
  cases ran : (handlers routines bound).force first heap with
  | error stop after =>
    rw [ran] at nest
    exact .of_error nest more once stop
  | ok stream after =>
    rw [ran] at nest
    obtain ⟨closed, size, within⟩ := closed.of_force there ran
    have there' := Nat.lt_of_lt_of_le there' size
    by_cases goes : stream = .empty
    · subst goes
      have none := ends after ran
      obtain ⟨own'', calls'', nest, more', once', ends'⟩ := force closed nest there'
      exact ⟨own'', calls'', nest, fun is => more' (more is), by omega,
        fun last ended => Nat.le_trans (ends' last ended) none⟩
    · obtain ⟨made, last, merged, goes, nest⟩ :=
        mergeWith_eq_ok (handlers routines bound) closed nest within there' goes
      show Thrifty marking body own calls (stream.mergeWith (handlers routines bound) second after)
      rw [merged]
      exact .of_ok nest (fun is => .inl (more is)) once goes

/-- Where a cell of the flat map is forced, its work is done thriftily. -/
theorem Thrifty.of_work {handlers : Handlers α ε ρ} {cell : CellId} {work : Work α ε ρ}
    (is : own cell) (found : heap.cells[cell]? = some ⟨work, .waiting⟩)
    (worked : Thrifty marking body own calls (work.run handlers (heap.start cell))) :
    Thrifty marking body own calls (forceCell handlers cell heap) := by
  obtain ⟨own', calls', nest, more, once, ends⟩ := worked
  refine ⟨own', calls', ?_, more, once, fun after ended => ?_⟩
  · cases ran : forceCell handlers cell heap with
    | ok made after =>
      obtain ⟨finished, worked, rfl⟩ := (forceCell_waiting_eq_ok found).mp ran
      rw [worked] at nest
      exact nest.mark (fun impossible => nomatch impossible)
        fun _ _ outside => absurd (more is) outside
    | error stop after =>
      rw [(forceCell_waiting_eq_error found).mp ran] at nest
      exact nest
  · obtain ⟨finished, worked, _⟩ := (forceCell_waiting_eq_ok found).mp ended
    exact ends finished worked

/-- Where a run is thrifty and what comes after it calls the function so many times at most, all of
it calls the function once more at most. -/
theorem Thrifty.calls_bind_le {run : Run α ε ρ (Stream α)} {next : Stream α → Run α ε ρ (Stream α)}
    {more : Nat} (first : Thrifty marking body own calls (run heap))
    (further : ∀ {made : Stream α} {after : Heap α ε ρ} {own' : CellId → Prop} {calls' : List α},
      run heap = .ok made after → after.Nest marking body own' calls' →
        (marking.calls (Run.left (next made after))).length ≤ calls'.length + more) :
    (marking.calls (Run.left ((run >>= next) heap))).length ≤ calls.length + (more + 1) := by
  obtain ⟨own', calls', nest, _, once, _⟩ := first
  rw [Run.bind_apply]
  cases ran : run heap with
  | error stop after =>
    rw [ran] at nest
    have same : marking.calls after = calls' := nest.calls
    show (marking.calls after).length ≤ _
    rw [same]
    omega
  | ok made after =>
    rw [ran] at nest
    have rest := further ran nest
    show (marking.calls (Run.left (next made after))).length ≤ _
    omega

section Mapping

variable (report : ∀ routine, (routines routine).Reports marking.Other)
  (silent : ∀ value, (body value).Reports marking.Other)

include report

/-- Whatever others do, they do not call the function and leave the cells of the flat map alone. -/
theorem handlers_keep_nest (bound : Nat) :
    (handlers routines bound).Keep (Outside own) (Heap.Nest marking body own calls) :=
  Heap.Nest.stable.keep_handlers report (fun nest outside => nest.outside outside) bound

include silent

/-- Mapping a stream of others calls the function once if the stream has a value at its front. -/
theorem mapcatWith_thrifty (bound : Nat) (closed : heap.Closed)
    (nest : heap.Nest marking body own calls) {source : Stream α} {scope : List (Stream α)}
    (there : source.Within heap.cells.size) (outside : source.Refers (Outside own))
    (within : ∀ stream ∈ scope, stream.Within heap.cells.size)
    (inside : ∀ stream ∈ scope, stream.Refers (Outside own)) :
    Thrifty marking body own calls (source.mapcatWith (handlers routines bound)
      (marking.applied body) scope
      (fun value => (marking.applied body value).eval (handlers routines bound) scope) heap) := by
  cases source with
  | empty => exact .of_nest nest
  | suspended cell =>
    have made := nest.push_own closed (.mapcat outside inside) ⟨there, within⟩
    exact .of_ok made .inl (Nat.le_succ _) fun impossible => nomatch impossible
  | cons head tail =>
    have stable : Heap.Stable (Outside own) marking.Other
        (Heap.Nest marking body own (calls ++ [head])) := Heap.Nest.stable
    have once : (calls ++ [head]).length ≤ calls.length + 1 := by
      rw [List.length_append, List.length_singleton]
    have called := nest.withTrace (heap.trace.push (.reported (marking.mark head)))
    rw [Heap.calls_mark, nest.calls] at called
    have applied :=
      stable.keeps_plan (handlers_keep_nest report bound) (silent head) inside _ called
    rw [mapcatWith_applied, Run.bind_apply]
    have kept := applied.kept
    cases ran : (body head).eval (handlers routines bound) scope
        (heap.withTrace (heap.trace.push (.reported (marking.mark head)))) with
    | error stop after =>
      rw [ran] at kept
      exact .of_error kept id once stop
    | ok first after =>
      rw [ran] at kept
      obtain ⟨closed, size, made⟩ := (closed.withTrace (heap.trace.push _)).of_eval within ran
      obtain ⟨own', result, last, rested, goes, nest, more⟩ := mapcatWith_eq_ok
        (handlers routines bound) closed kept made (Nat.lt_of_lt_of_le there size) outside
        (fun stream member => (within stream member).mono size) inside
      show Thrifty marking body own calls ((Run.defer _ >>= _ : Run α ε ρ (Stream α)) after)
      rw [rested]
      exact .of_ok nest more once goes

/-- Going on with the values of a stream of others calls the function once at most. -/
theorem mapcat_thrifty (closed : heap.Closed) (nest : heap.Nest marking body own calls)
    {source : CellId} {scope : List (Stream α)} (there : source < heap.cells.size)
    (outside : ¬ own source) (within : ∀ stream ∈ scope, stream.Within heap.cells.size)
    (inside : ∀ stream ∈ scope, stream.Refers (Outside own)) :
    Thrifty marking body own calls
      (Work.run (handlers routines bound) (.mapcat source (marking.applied body) scope) heap) := by
  have forced := (handlers_keep_nest report bound).force outside heap nest
  have kept := forced.kept
  show Thrifty marking body own calls ((do
    let stream ← (handlers routines bound).force source
    stream.mapcatWith (handlers routines bound) (marking.applied body) scope fun value =>
      (marking.applied body value).eval (handlers routines bound) scope :
        Run α ε ρ (Stream α)) heap)
  rw [Run.bind_apply]
  cases ran : (handlers routines bound).force source heap with
  | error stop after =>
    rw [ran] at kept
    exact .of_nest kept
  | ok stream after =>
    rw [ran] at kept
    obtain ⟨closed, size, made⟩ := closed.of_force there ran
    exact mapcatWith_thrifty report silent bound closed kept made (forced.right ran)
      (fun stream member => (within stream member).mono size) inside

/-- Forcing a cell calls the function once at most, and not at all if the end is reached. A merge
forces its cells under the bound before; each of them is one of its own or of others. -/
theorem force_thrifty (bound : Nat) {own : CellId → Prop} {calls : List α} {heap : Heap α ε ρ}
    {cell : CellId} (closed : heap.Closed) (nest : heap.Nest marking body own calls)
    (there : cell < heap.cells.size) :
    Thrifty marking body own calls ((handlers routines bound).force cell heap) := by
  induction bound generalizing own calls heap cell with
  | zero => exact .of_nest nest
  | succ bound force =>
    by_cases is : own cell
    · show Thrifty marking body own calls (forceCell (handlers routines bound) cell heap)
      rcases found : heap.cells[cell]? with _ | ⟨work, _ | _ | stream⟩
      · rw [forceCell_missing _ found]
        exact .of_nest nest
      · refine .of_work is found ?_
        have within := closed.work found
        rw [← Heap.size_start heap cell] at within
        cases nest.inside is found with
        | merge first second =>
          exact merge_thrifty force (closed.start cell) (nest.start cell) within.1 within.2
        | mapcat outside inside =>
          exact mapcat_thrifty report silent (closed.start cell) (nest.start cell) within.1 outside
            within.2 inside
      · rw [forceCell_running _ found]
        exact .of_nest nest
      · rw [forceCell_done _ found]
        exact .of_nest nest
    · exact .of_nest ((handlers_keep_nest report (bound + 1)).force is heap nest).kept

/-- A step along a stream calls the function once at most. -/
theorem step_thrifty (bound : Nat) (closed : heap.Closed)
    (nest : heap.Nest marking body own calls) {stream : Stream α}
    (within : stream.Within heap.cells.size) :
    Thrifty marking body own calls (stream.step (handlers routines bound) heap) := by
  cases stream with
  | empty => exact .of_nest nest
  | cons head tail => exact force_thrifty report silent bound closed nest within
  | suspended cell => exact force_thrifty report silent bound closed nest within

/-- So many steps along a stream call the function so many times at most. -/
theorem calls_advance_le (bound moves : Nat) (closed : heap.Closed)
    (nest : heap.Nest marking body own calls) {stream : Stream α}
    (within : stream.Within heap.cells.size) :
    (marking.calls (Run.left (stream.advance (handlers routines bound) moves heap))).length ≤
      calls.length + moves := by
  induction moves generalizing own calls heap stream with
  | zero => exact Nat.le_of_eq (congrArg _ nest.calls)
  | succ moves further =>
    have first := step_thrifty report silent bound closed nest within
    refine first.calls_bind_le fun ran nest => ?_
    obtain ⟨closed, _, within⟩ := Heap.Closed.of_ok
      (fun depth => (Comparison.executes_upTo depth).step closed.realizes_full within) ran
    exact further closed nest within

/-- Building a flat map and taking so many steps along it calls the function at most once more than
there are steps, whatever they come to. -/
theorem calls_mapcat_le (bound moves : Nat) (closed : heap.Closed)
    (reports : heap.Reports marking.Other) {source : Stream α} {scope : List (Stream α)}
    (there : source.Within heap.cells.size)
    (within : ∀ stream ∈ scope, stream.Within heap.cells.size) :
    (marking.calls (Run.left ((do
      let mapped ← source.mapcatWith (handlers routines bound) (marking.applied body) scope
        fun value => (marking.applied body value).eval (handlers routines bound) scope
      mapped.advance (handlers routines bound) moves : Run α ε ρ (Stream α)) heap))).length ≤
        (marking.calls heap).length + (moves + 1) := by
  have all : ∀ cell, Outside (fun _ => False) cell := fun _ => id
  have built := mapcatWith_thrifty report silent bound closed (Heap.nest_none reports) there
    (source.refers_of_all all) within fun stream _ => stream.refers_of_all all
  refine built.calls_bind_le fun ran nest => ?_
  have executes := fun depth => @Comparison.executes_upTo _ _ _ routines heap depth
  obtain ⟨closed, _, within⟩ := Heap.Closed.of_ok
    (fun depth => (executes depth).mapcatWith closed.realizes_full (marking.applied body)
      within (fun value => (executes depth).plan closed.realizes_full _ within) there) ran
  exact calls_advance_le report silent bound moves closed nest within

end Mapping

end Thrift

end Relational
