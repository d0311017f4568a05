import Relational.Proofs.Stream.Sharing
import Relational.Stream.LifeCycle

/-!
# Cells live once

Everything that is built from making cells, reporting, forcing and calling takes a heap through a
course of moves, leaves the work alone that was under way before, and asks its handlers only on
heaps that come from its own by such courses. So a cell that is done or under way can be answered
for once and for all, at any depth of nesting, and no work is ever started a second time.
-/
namespace Relational

variable {α ε ρ γ γ' : Type}

/-- A status that comes after another one comes after what that one came after. -/
theorem Status.Before.trans {first second third : Status α}
    (early : first.Before second) (late : second.Before third) : first.Before third := by
  cases early with
  | same => exact late
  | started =>
    cases late with
    | same => exact .started
    | finished stream => exact .through stream
  | finished stream => cases late; exact .finished stream
  | through stream => cases late; exact .through stream

namespace Heap

variable {before after heap : Heap α ε ρ} {cell : CellId} {work : Work α ε ρ} {status : Status α}

/-- The status of a cell that is there. -/
theorem status?_eq (found : heap.cells[cell]? = some ⟨work, status⟩) :
    heap.status? cell = some status := by
  rw [status?, found, Option.map_some]

/-- A cell with a status is there. -/
theorem exists_of_status? (known : heap.status? cell = some status) :
    ∃ work, heap.cells[cell]? = some ⟨work, status⟩ := by
  obtain ⟨⟨work, _⟩, found, rfl⟩ := Option.map_eq_some_iff.mp known
  exact ⟨work, found⟩

section Starts

/-- Moving a cell on is not by itself a start. -/
theorem starts_mark (heap : Heap α ε ρ) (cell : CellId) (status : Status α) :
    (heap.mark cell status).starts = heap.starts :=
  rfl

/-- A start is the last one. -/
theorem starts_start (heap : Heap α ε ρ) (cell : CellId) :
    (heap.start cell).starts = heap.starts ++ [cell] := by
  simp only [starts, start, withTrace, Array.toList_push, List.filterMap_append,
    List.filterMap_cons, List.filterMap_nil]

/-- Reporting starts nothing. -/
theorem starts_report (heap : Heap α ε ρ) (event : ε) :
    (heap.withTrace (heap.trace.push (.reported event))).starts = heap.starts := by
  simp only [starts, withTrace, Array.toList_push, List.filterMap_append, List.filterMap_cons,
    List.filterMap_nil, List.append_nil]

end Starts

/-- What a move is, said by what becomes of the heap. -/
theorem Move.cases (move : before.Move after) :
    (∃ work, (∀ stream, work ≠ .known stream) ∧ after = before.push ⟨work, .waiting⟩) ∨
      (∃ stream, after = before.push ⟨.known stream, .done stream⟩) ∨
      (∃ cell work, before.cells[cell]? = some ⟨work, .waiting⟩ ∧ after = before.start cell) ∨
      (∃ cell work stream, before.cells[cell]? = some ⟨work, .running⟩ ∧
        after = before.mark cell (.done stream)) ∨
      ∃ event, after = before.withTrace (before.trace.push (.reported event)) := by
  cases move with
  | @defer work number unknown made =>
    cases made
    exact .inl ⟨work, unknown, rfl⟩
  | @known stream number made =>
    cases made
    exact .inr (.inl ⟨stream, rfl⟩)
  | @start cell work waiting started =>
    cases started
    exact .inr (.inr (.inl ⟨cell, work, waiting, rfl⟩))
  | @finish cell work stream running stored =>
    cases stored
    exact .inr (.inr (.inr (.inl ⟨cell, work, stream, running, rfl⟩)))
  | @report event reported =>
    cases reported
    exact .inr (.inr (.inr (.inr ⟨event, rfl⟩)))

/-- How a move moves a cell that is there: it stays as it is, or its work is started, or its work
comes to an end. -/
theorem Move.kept (move : before.Move after)
    (found : before.cells[cell]? = some ⟨work, status⟩) :
    ∃ status', after.cells[cell]? = some ⟨work, status'⟩ ∧
      (status' = status ∧ after.starts.count cell = before.starts.count cell ∨
        status = .waiting ∧ status' = .running ∧
          after.starts.count cell = before.starts.count cell + 1 ∨
        status = .running ∧ (∃ stream, status' = .done stream) ∧
          after.starts.count cell = before.starts.count cell) := by
  have pushed : ∀ made : Cell α ε ρ, (before.push made).cells[cell]? = some ⟨work, status⟩ := by
    intro made
    rw [getElem?_push, if_neg (Nat.ne_of_lt (lt_size_of_getElem? found)), found]
  rcases move.cases with ⟨_, _, rfl⟩ | ⟨_, rfl⟩ | ⟨other, _, waiting, rfl⟩ |
    ⟨other, _, stream, running, rfl⟩ | ⟨event, rfl⟩
  · exact ⟨status, pushed _, .inl ⟨rfl, rfl⟩⟩
  · exact ⟨status, pushed _, .inl ⟨rfl, rfl⟩⟩
  · rw [starts_start, List.count_append, List.count_singleton]
    by_cases here : other = cell
    · subst here
      rw [found, Option.some.injEq, Cell.mk.injEq] at waiting
      refine ⟨.running, ?_, .inr (.inl ⟨waiting.2, rfl, by rw [if_pos (beq_self_eq_true _)]⟩)⟩
      show (before.mark other .running).cells[other]? = _
      rw [getElem?_mark, if_pos rfl, found, Option.map_some]
    · refine ⟨status, ?_, .inl ⟨rfl, by rw [if_neg (by simpa using here)]; rfl⟩⟩
      show (before.mark other .running).cells[cell]? = _
      rw [getElem?_mark, if_neg here, found]
  · rw [starts_mark]
    by_cases here : other = cell
    · subst here
      rw [found, Option.some.injEq, Cell.mk.injEq] at running
      refine ⟨.done stream, ?_, .inr (.inr ⟨running.2, ⟨stream, rfl⟩, rfl⟩)⟩
      rw [getElem?_mark, if_pos rfl, found, Option.map_some]
    · refine ⟨status, ?_, .inl ⟨rfl, rfl⟩⟩
      rw [getElem?_mark, if_neg here, found]
  · exact ⟨status, found, .inl ⟨rfl, by rw [starts_report]⟩⟩

/-- A cell that a move makes is waiting or has its stream; nothing is started for it. -/
theorem Move.fresh (move : before.Move after) (absent : before.cells[cell]? = none) :
    after.starts.count cell = before.starts.count cell ∧
      (after.cells[cell]? = none ∨
        (∃ work, (∀ stream, work ≠ .known stream) ∧ after.cells[cell]? = some ⟨work, .waiting⟩) ∨
        ∃ stream, after.cells[cell]? = some ⟨.known stream, .done stream⟩) := by
  have marked : ∀ {other : CellId} (status : Status α),
      (before.mark other status).cells[cell]? = none := by
    intro other status
    rw [getElem?_mark, absent, Option.map_none, ite_self]
  have apart : ∀ {other : CellId} {found : Cell α ε ρ}, before.cells[other]? = some found →
      other ≠ cell := by
    rintro other found there rfl
    exact nomatch there.symm.trans absent
  rcases move.cases with ⟨work, unknown, rfl⟩ | ⟨stream, rfl⟩ | ⟨other, _, waiting, rfl⟩ |
    ⟨other, _, stream, running, rfl⟩ | ⟨event, rfl⟩
  · refine ⟨rfl, ?_⟩
    rw [getElem?_push, absent]
    split
    · exact .inr (.inl ⟨work, unknown, rfl⟩)
    · exact .inl rfl
  · refine ⟨rfl, ?_⟩
    rw [getElem?_push, absent]
    split
    · exact .inr (.inr ⟨stream, rfl⟩)
    · exact .inl rfl
  · refine ⟨?_, .inl (marked .running)⟩
    rw [starts_start, List.count_append, List.count_singleton,
      if_neg (by simpa using apart waiting)]
    rfl
  · exact ⟨rfl, .inl (marked _)⟩
  · exact ⟨by rw [starts_report], .inl absent⟩

/-- Along a course every cell keeps its work and moves forward. -/
theorem Course.forward (course : before.Course after)
    (found : before.cells[cell]? = some ⟨work, status⟩) :
    ∃ status', after.cells[cell]? = some ⟨work, status'⟩ ∧ status.Before status' := by
  induction course with
  | refl => exact ⟨status, found, .same status⟩
  | tail _ move earlier =>
    obtain ⟨middle, found, forward⟩ := earlier
    obtain ⟨last, found, moved⟩ := move.kept found
    refine ⟨last, found, forward.trans ?_⟩
    rcases moved with ⟨rfl, _⟩ | ⟨rfl, rfl, _⟩ | ⟨rfl, ⟨stream, rfl⟩, _⟩
    · exact .same last
    · exact .started
    · exact .finished stream

/-- A cell that is done stays done with its stream. -/
theorem Course.done {stream : Stream α} (course : before.Course after)
    (known : before.status? cell = some (.done stream)) :
    after.status? cell = some (.done stream) := by
  obtain ⟨work, found⟩ := exists_of_status? known
  obtain ⟨_, found, forward⟩ := course.forward found
  cases forward
  exact status?_eq found

/-- Nothing is started for a cell whose work has been started, or that holds its stream. -/
theorem Course.count_starts (course : before.Course after)
    (found : before.cells[cell]? = some ⟨work, status⟩) (begun : status ≠ .waiting) :
    after.starts.count cell = before.starts.count cell := by
  have all : ∃ status', after.cells[cell]? = some ⟨work, status'⟩ ∧ status' ≠ .waiting ∧
      after.starts.count cell = before.starts.count cell := by
    induction course with
    | refl => exact ⟨status, found, begun, rfl⟩
    | tail _ move earlier =>
      obtain ⟨middle, there, begun, same⟩ := earlier
      obtain ⟨last, there', moved⟩ := move.kept there
      rw [← same]
      rcases moved with ⟨rfl, count⟩ | ⟨rfl, _, _⟩ | ⟨_, ⟨stream, rfl⟩, count⟩
      · exact ⟨last, there', begun, count⟩
      · exact absurd rfl begun
      · exact ⟨.done stream, there', fun impossible => (nomatch impossible), count⟩
  obtain ⟨_, _, _, same⟩ := all
  exact same

/-- How often the work of a cell was started, as the cell tells, if there is one. -/
inductive Tells : Option (Cell α ε ρ) → Nat → Prop where
  /-- Nothing was started for a cell that is not there. -/
  | absent : Tells none 0
  /-- Nothing was started for a cell that was made for a known stream, which it holds. -/
  | ready (stream : Stream α) : Tells (some ⟨.known stream, .done stream⟩) 0
  /-- Work that is waiting was not started. -/
  | waiting {work : Work α ε ρ} (unknown : ∀ stream, work ≠ .known stream) :
    Tells (some ⟨work, .waiting⟩) 0
  /-- All other work was started once. -/
  | begun {work : Work α ε ρ} {status : Status α} (unknown : ∀ stream, work ≠ .known stream)
    (begun : status ≠ .waiting) : Tells (some ⟨work, status⟩) 1

/-- Every cell tells how often its work was started. -/
def Orderly (heap : Heap α ε ρ) : Prop :=
  ∀ cell, Tells heap.cells[cell]? (heap.starts.count cell)

/-- A heap without cells is orderly. -/
theorem orderly_empty : (empty : Heap α ε ρ).Orderly := fun _ => .absent

/-- A move keeps a heap orderly. -/
theorem Orderly.move (orderly : before.Orderly) (move : before.Move after) : after.Orderly := by
  intro cell
  have told := orderly cell
  generalize count : before.starts.count cell = number at told
  rcases found : before.cells[cell]? with _ | ⟨work, status⟩
  · obtain ⟨same, absent | ⟨work, unknown, waiting⟩ | ⟨stream, ready⟩⟩ := move.fresh found
    all_goals
      rw [found] at told
      cases told
      rw [same, count]
    · exact absent ▸ .absent
    · exact waiting ▸ .waiting unknown
    · exact ready ▸ .ready stream
  · obtain ⟨last, there, moved⟩ := move.kept found
    rw [found] at told
    rw [there]
    cases told with
    | ready stream =>
      obtain ⟨rfl, same⟩ | ⟨impossible, _⟩ | ⟨impossible, _⟩ := moved
      · rw [same, count]
        exact .ready stream
      · exact nomatch impossible
      · exact nomatch impossible
    | waiting unknown =>
      obtain ⟨rfl, same⟩ | ⟨_, rfl, more⟩ | ⟨impossible, _⟩ := moved
      · rw [same, count]
        exact .waiting unknown
      · rw [more, count]
        exact .begun unknown fun impossible => nomatch impossible
      · exact nomatch impossible
    | begun unknown begun =>
      obtain ⟨rfl, same⟩ | ⟨rfl, _⟩ | ⟨_, ⟨stream, rfl⟩, same⟩ := moved
      · rw [same, count]
        exact .begun unknown begun
      · exact absurd rfl begun
      · rw [same, count]
        exact .begun unknown fun impossible => nomatch impossible

/-- No work of an orderly heap was started twice. -/
theorem Orderly.once (orderly : heap.Orderly) (cell : CellId) : heap.starts.count cell ≤ 1 := by
  have told := orderly cell
  generalize heap.starts.count cell = number, heap.cells[cell]? = found at told
  cases told with
  | absent | ready | waiting => exact Nat.zero_le 1
  | begun => exact Nat.le_refl 1

/-- A course keeps a heap orderly. -/
theorem Orderly.course (orderly : before.Orderly) (course : before.Course after) :
    after.Orderly := by
  induction course with
  | refl => exact orderly
  | tail _ move orderly => exact orderly.move move

/-- A heap comes to another one by a course that leaves the work under way alone. -/
structure Lives (before after : Heap α ε ρ) : Prop where
  /-- It comes to it by a course. -/
  course : before.Course after
  /-- Work that was under way before is under way after. -/
  running : ∀ {cell}, before.status? cell = some .running → after.status? cell = some .running

/-- A heap comes to itself. -/
theorem Lives.refl (heap : Heap α ε ρ) : heap.Lives heap := ⟨.refl, id⟩

/-- A heap comes to what comes of what it comes to. -/
theorem Lives.trans {first second third : Heap α ε ρ} (early : first.Lives second)
    (late : second.Lives third) : first.Lives third :=
  ⟨early.course.trans late.course, fun known => late.running (early.running known)⟩

/-- A move that finishes no work leaves the work under way alone. -/
theorem Lives.of_move (move : before.Move after)
    (finishes : ∀ cell work stream, before.cells[cell]? = some ⟨work, .running⟩ →
      after.status? cell ≠ some (.done stream)) : before.Lives after := by
  refine ⟨.single move, fun known => ?_⟩
  obtain ⟨work, found⟩ := exists_of_status? known
  obtain ⟨last, there, moved⟩ := move.kept found
  rcases moved with ⟨rfl, _⟩ | ⟨impossible, _⟩ | ⟨_, ⟨stream, rfl⟩, _⟩
  · exact status?_eq there
  · exact nomatch impossible
  · exact absurd (status?_eq there) (finishes _ _ _ found)

end Heap

namespace Run

/-- Whatever a run comes to, its heap comes to what it leaves. -/
def Lasts (run : Run α ε ρ γ) : Prop := ∀ heap : Heap α ε ρ, heap.Lives (left (run heap))

/-- Without doing anything the heap stays. -/
theorem Lasts.pure (result : γ) : (pure result : Run α ε ρ γ).Lasts := fun heap => .refl heap

/-- Giving up leaves the heap. -/
theorem Lasts.throw (stop : Stop) : (throw stop : Run α ε ρ γ).Lasts := fun heap => .refl heap

/-- One run after another. -/
theorem Lasts.bind {run : Run α ε ρ γ} {next : γ → Run α ε ρ γ'} (first : run.Lasts)
    (second : ∀ result, (next result).Lasts) : (run >>= next).Lasts := by
  intro heap
  rw [bind_apply]
  have early := first heap
  cases ran : run heap with
  | ok result after =>
    rw [ran] at early
    exact early.trans (second result after)
  | error stop after =>
    rw [ran] at early
    exact early

/-- A new cell finishes no work. -/
theorem lives_push {heap : Heap α ε ρ} {made : Cell α ε ρ} (move : heap.Move (heap.push made)) :
    heap.Lives (heap.push made) := by
  refine .of_move move fun cell work stream found done => ?_
  rw [Heap.status?, Heap.getElem?_push,
    if_neg (Nat.ne_of_lt (Heap.lt_size_of_getElem? found)), found] at done
  exact nomatch done

/-- Deferring work. -/
theorem Lasts.defer {work : Work α ε ρ} (unknown : ∀ stream, work ≠ .known stream) :
    (defer work).Lasts :=
  fun _ => lives_push (.defer unknown rfl)

/-- Keeping a known stream. -/
theorem Lasts.known (stream : Stream α) : (known stream : Run α ε ρ CellId).Lasts :=
  fun _ => lives_push (.known rfl)

/-- Reporting an event. -/
theorem Lasts.record (event : ε) : (record (.reported event) : Run α ε ρ Unit).Lasts := by
  refine fun heap => .of_move (.report rfl) fun cell work stream found done => ?_
  have same : heap.status? cell = some (.done stream) := done
  rw [Heap.status?_eq found] at same
  exact nomatch same

/-- Reporting events. -/
theorem Lasts.report (events : List ε) : (report events : Run α ε ρ Unit).Lasts := by
  induction events with
  | nil => exact .pure ()
  | cons event events others => exact (Lasts.record event).bind fun _ => others

/-- Asking a source. -/
theorem Lasts.pull (source : Source α ε) (position : Nat) :
    (source.pull position : Run α ε ρ (Stream α)).Lasts := by
  have deferred : (Run.defer (.pull source (position + 1)) : Run α ε ρ CellId).Lasts :=
    .defer fun _ impossible => nomatch impossible
  refine (Lasts.report _).bind fun _ => ?_
  cases source.item position with
  | none => exact .pure _
  | some item => exact deferred.bind fun _ => .pure _

end Run

namespace Handlers

/-- What handlers do takes a heap through a course. -/
structure Last (handlers : Handlers α ε ρ) : Prop where
  /-- Forcing does. -/
  force : ∀ cell, (handlers.force cell).Lasts
  /-- Calling does. -/
  call : ∀ routine, (handlers.call routine).Lasts

/-- Handlers do the same on all heaps that a heap comes to. -/
structure AgreeFrom (heap : Heap α ε ρ) (handlers others : Handlers α ε ρ) : Prop where
  /-- Forcing does. -/
  force : ∀ {later : Heap α ε ρ} (cell : CellId), heap.Lives later →
    handlers.force cell later = others.force cell later
  /-- Calling does. -/
  call : ∀ {later : Heap α ε ρ} (routine : ρ), heap.Lives later →
    handlers.call routine later = others.call routine later

/-- What agrees from a heap on agrees from every heap that it comes to. -/
theorem AgreeFrom.later {heap later : Heap α ε ρ} {handlers others : Handlers α ε ρ}
    (agree : AgreeFrom heap handlers others) (lives : heap.Lives later) :
    AgreeFrom later handlers others :=
  ⟨fun cell more => agree.force cell (lives.trans more),
    fun routine more => agree.call routine (lives.trans more)⟩

/-- A run that takes its heap through a course, as its handlers do, and uses them only on heaps that
its own heap comes to. -/
structure Lasting (run : Handlers α ε ρ → Run α ε ρ γ) : Prop where
  /-- Its heap goes through a course. -/
  lasts : ∀ {handlers : Handlers α ε ρ}, handlers.Last → (run handlers).Lasts
  /-- Handlers that do the same on those heaps make no difference. -/
  heeds : ∀ {handlers others : Handlers α ε ρ} {heap : Heap α ε ρ}, handlers.Last →
    AgreeFrom heap handlers others → run handlers heap = run others heap

/-- A run without handlers. -/
theorem Lasting.constant {run : Run α ε ρ γ} (lasts : run.Lasts) :
    Lasting fun _ : Handlers α ε ρ => run :=
  ⟨fun _ => lasts, fun _ _ => rfl⟩

/-- Forcing. -/
theorem Lasting.force (cell : CellId) :
    Lasting fun handlers : Handlers α ε ρ => handlers.force cell :=
  ⟨fun last => last.force cell, fun {_ _ heap} _ agree => agree.force cell (.refl heap)⟩

/-- Calling. -/
theorem Lasting.call (routine : ρ) :
    Lasting fun handlers : Handlers α ε ρ => handlers.call routine :=
  ⟨fun last => last.call routine, fun {_ _ heap} _ agree => agree.call routine (.refl heap)⟩

/-- One run after another. -/
theorem Lasting.bind {run : Handlers α ε ρ → Run α ε ρ γ}
    {next : Handlers α ε ρ → γ → Run α ε ρ γ'} (first : Lasting run)
    (second : ∀ result, Lasting fun handlers => next handlers result) :
    Lasting fun handlers => run handlers >>= next handlers where
  lasts last := (first.lasts last).bind fun result => (second result).lasts last
  heeds {handlers others heap} last agree := by
    rw [Run.bind_apply, Run.bind_apply, ← first.heeds last agree]
    have lives := first.lasts last heap
    cases ran : run handlers heap with
    | ok result after =>
      rw [ran] at lives
      exact (second result).heeds last (agree.later lives)
    | error stop after => rfl

/-- Merging. -/
theorem Lasting.mergeWith (first : Stream α) (second : CellId) :
    Lasting fun handlers : Handlers α ε ρ => first.mergeWith handlers second := by
  have deferred : ∀ cell, (Run.defer (.merge second cell) : Run α ε ρ CellId).Lasts :=
    fun cell => .defer fun _ impossible => nomatch impossible
  cases first with
  | empty => exact .force second
  | cons head tail => exact .constant ((deferred tail).bind fun _ => .pure _)
  | suspended cell => exact .constant ((deferred cell).bind fun _ => .pure _)

/-- Merging two streams. -/
theorem Lasting.merge (first second : Stream α) :
    Lasting fun handlers : Handlers α ε ρ => first.merge handlers second :=
  (Lasting.constant (.known second)).bind fun other => .mergeWith first other

/-- Mapping. -/
theorem Lasting.mapcatWith (body : α → Plan α ε ρ) (scope : List (Stream α))
    {apply : Handlers α ε ρ → α → Run α ε ρ (Stream α)}
    (applied : ∀ value, Lasting fun handlers => apply handlers value) (source : Stream α) :
    Lasting fun handlers => source.mapcatWith handlers body scope (apply handlers) := by
  have deferred : ∀ cell, (Run.defer (.mapcat cell body scope)).Lasts :=
    fun cell => .defer fun _ impossible => nomatch impossible
  cases source with
  | empty => exact .constant (.pure _)
  | cons head tail =>
    refine (applied head).bind fun first => (Lasting.constant (deferred tail)).bind fun rest => ?_
    cases first with
    | empty => exact .constant (.pure _)
    | cons => exact .mergeWith _ _
    | suspended => exact .mergeWith _ _
  | suspended cell => exact .constant ((deferred cell).bind fun _ => .pure _)

/-- Taking a step. -/
theorem Lasting.step (stream : Stream α) :
    Lasting fun handlers : Handlers α ε ρ => stream.step handlers := by
  cases stream with
  | empty => exact .constant (.pure _)
  | cons head tail => exact .force tail
  | suspended cell => exact .force cell

/-- Carrying out a plan. -/
theorem Lasting.plan (plan : Plan α ε ρ) (scope : List (Stream α)) :
    Lasting fun handlers => plan.eval handlers scope := by
  have deferred : ∀ (content : Plan α ε ρ) (scope : List (Stream α)),
      (Run.defer (.plan content scope)).Lasts :=
    fun _ _ => .defer fun _ impossible => nomatch impossible
  induction plan generalizing scope with
  | empty | ref => exact .constant (.pure _)
  | unit value => exact .constant ((Run.Lasts.known _).bind fun _ => .pure _)
  | lazy source => exact .constant (.pull source 0)
  | cons head tail => exact .constant ((deferred tail scope).bind fun _ => .pure _)
  | suspend content => exact .constant ((deferred content scope).bind fun _ => .pure _)
  | knot content =>
    exact .constant fun heap =>
      ((deferred content (.suspended heap.cells.size :: scope)).bind fun _ => .pure _) heap
  | fail fault => exact .constant (.throw _)
  | ready content lasting =>
    exact (lasting scope).bind fun stream =>
      .constant ((Run.Lasts.known stream).bind fun _ => .pure _)
  | merge left right lastingLeft lastingRight =>
    exact (lastingLeft scope).bind fun first => (lastingRight scope).bind fun second =>
      .merge first second
  | mapcat source body lastingSource lastingBody =>
    exact (lastingSource scope).bind fun stream =>
      .mapcatWith body scope (fun value => lastingBody value scope) stream
  | share stream body lastingStream lastingBody =>
    exact (lastingStream scope).bind fun shared => lastingBody (shared :: scope)
  | force stream lasting => exact (lasting scope).bind fun made => .step made
  | report event next lasting =>
    exact (Lasting.constant (.record event)).bind fun _ => lasting scope
  | computed plan lasting => exact lasting () scope
  | call routine => exact .call routine

/-- Doing the work of a cell. -/
theorem Lasting.work (work : Work α ε ρ) : Lasting fun handlers => work.run handlers := by
  cases work with
  | known stream => exact .constant (.pure stream)
  | plan content scope => exact .plan content scope
  | merge first second =>
    exact (Lasting.force first).bind fun stream => .mergeWith stream second
  | mapcat source body scope =>
    exact (Lasting.force source).bind fun stream =>
      .mapcatWith body scope (fun value => .plan (body value) scope) stream
  | pull source position => exact .constant (.pull source position)

/-- Looking for the next value. -/
theorem Lasting.uncons? (bound : Nat) (stream : Stream α) :
    Lasting fun handlers : Handlers α ε ρ => stream.uncons? handlers bound := by
  induction bound, stream using Stream.uncons?.induct with
  | case1 bound =>
    simp only [Stream.uncons?]
    exact .constant (.pure _)
  | case2 bound head tail =>
    simp only [Stream.uncons?]
    exact .constant (.pure _)
  | case3 cell => exact .constant (.throw _)
  | case4 bound cell lasting => exact (Lasting.force cell).bind lasting

end Handlers

section Forcing

variable {heap after : Heap α ε ρ} {cell : CellId} {work : Work α ε ρ} {handlers : Handlers α ε ρ}
  {stream : Stream α} {stop : Stop}

/-- Forcing a cell that is waiting stops where its work stops. -/
theorem forceCell_waiting_eq_error (found : heap.cells[cell]? = some ⟨work, .waiting⟩) :
    forceCell handlers cell heap = .error stop after ↔
      work.run handlers (heap.start cell) = .error stop after := by
  rw [forceCell_waiting handlers found]
  show (work.run handlers >>= fun stream => do
    Run.setStatus cell (.done stream)
    pure stream : Run α ε ρ (Stream α)) (heap.start cell) = .error stop after ↔ _
  rw [Run.bind_apply]
  cases work.run handlers (heap.start cell) with
  | ok result finished =>
    exact ⟨fun impossible => (nomatch impossible), fun impossible => nomatch impossible⟩
  | error other finished => rfl

/-- Starting the work of a cell that is waiting moves its heap on. -/
theorem Heap.Lives.start (found : heap.cells[cell]? = some ⟨work, .waiting⟩) :
    heap.Lives (heap.start cell) := by
  refine .of_move (.start found rfl) fun other work stream running done => ?_
  have apart : cell ≠ other := by
    rintro rfl
    exact nomatch found.symm.trans running
  have same : (heap.mark cell .running).status? other = some (.done stream) := done
  rw [status?, getElem?_mark, if_neg apart, running] at same
  exact nomatch same

/-- The work of a cell is under way once it is started. -/
theorem Heap.status?_start (there : cell < heap.cells.size) :
    (heap.start cell).status? cell = some .running := by
  show ((heap.mark cell .running).cells[cell]?).map _ = _
  rw [getElem?_mark, if_pos rfl, Array.getElem?_eq_getElem there]
  rfl

/-- Where the work of a cell has come to its end, its heap has moved on. -/
theorem Heap.Lives.finish (found : heap.cells[cell]? = some ⟨work, .waiting⟩)
    {finished : Heap α ε ρ} (lives : (heap.start cell).Lives finished) (stream : Stream α) :
    heap.Lives (finished.mark cell (.done stream)) := by
  have running := lives.running (Heap.status?_start (Heap.lt_size_of_getElem? found))
  obtain ⟨other, there⟩ := Heap.exists_of_status? running
  refine ⟨((Heap.Lives.start found).trans lives).course.tail (.finish there rfl), ?_⟩
  intro number known
  have apart : cell ≠ number := by
    rintro rfl
    rw [Heap.status?_eq found] at known
    exact nomatch known
  have still := ((Heap.Lives.start found).trans lives).running known
  rw [Heap.status?, Heap.getElem?_mark, if_neg apart]
  exact still

end Forcing

namespace Handlers

/-- Forcing a cell by doing its work. -/
theorem Lasting.forceCell (cell : CellId) :
    Lasting fun handlers : Handlers α ε ρ => Relational.forceCell handlers cell := by
  refine ⟨fun {handlers} last heap => ?_, fun {handlers others heap} last agree => ?_⟩
  · rcases found : heap.cells[cell]? with _ | ⟨work, stream | _ | stream⟩
    · rw [forceCell_missing handlers found]
      exact .refl heap
    · have lives := (Lasting.work work).lasts last (heap.start cell)
      cases ran : Relational.forceCell handlers cell heap with
      | ok result after =>
        obtain ⟨finished, worked, rfl⟩ := (forceCell_waiting_eq_ok found).mp ran
        rw [worked] at lives
        exact .finish found lives result
      | error stop after =>
        rw [(forceCell_waiting_eq_error found).mp ran] at lives
        exact (Heap.Lives.start found).trans lives
    · rw [forceCell_running handlers found]
      exact .refl heap
    · rw [forceCell_done handlers found]
      exact .refl heap
  · rcases found : heap.cells[cell]? with _ | ⟨work, stream | _ | stream⟩
    · rw [forceCell_missing handlers found, forceCell_missing others found]
    · have same := (Lasting.work work).heeds last (agree.later (.start found))
      rw [forceCell_waiting handlers found, forceCell_waiting others found]
      show (work.run handlers >>= _) (heap.start cell) = (work.run others >>= _) (heap.start cell)
      rw [Run.bind_apply, Run.bind_apply, same]
    · rw [forceCell_running handlers found, forceCell_running others found]
    · rw [forceCell_done handlers found, forceCell_done others found]

end Handlers

variable (routines : ρ → Plan α ε ρ)

/-- Nested forcing and calling takes a heap through a course. -/
theorem handlers_last (bound : Nat) : (handlers routines bound).Last := by
  induction bound with
  | zero => exact ⟨fun _ => .throw _, fun _ => .throw _⟩
  | succ bound last =>
    exact ⟨fun cell => (Handlers.Lasting.forceCell cell).lasts last,
      fun routine => (Handlers.Lasting.plan (routines routine) []).lasts last⟩

/-- What is known of a cell that is done or under way is known for good. -/
theorem Heap.settled?_eq_some {early later : Heap α ε ρ} (lives : early.Lives later)
    {cell : CellId} {run : Run α ε ρ (Stream α)} (settled : early.settled? cell = some run)
    (handlers : Handlers α ε ρ) : forceCell handlers cell later = run later := by
  unfold settled? at settled
  split at settled
  · case h_1 stream known =>
    obtain ⟨work, found⟩ := exists_of_status? (lives.course.done known)
    cases settled
    rw [forceCell_done handlers found]
    rfl
  · case h_2 known =>
    obtain ⟨work, found⟩ := exists_of_status? (lives.running known)
    cases settled
    rw [forceCell_running handlers found]
    rfl
  · exact nomatch settled

/-- Cells that were done or under way need not be looked at again, at any depth. -/
theorem handlers_agreeFrom (early : Heap α ε ρ) (bound : Nat) :
    Handlers.AgreeFrom early (handlers routines bound) (handlersAfter routines early bound) := by
  induction bound with
  | zero => exact ⟨fun _ _ => rfl, fun _ _ => rfl⟩
  | succ bound agree =>
    refine ⟨fun {later} cell lives => ?_, fun routine lives => ?_⟩
    · show forceCell (handlers routines bound) cell later =
        ((early.settled? cell).getD (forceCell (handlersAfter routines early bound) cell)) later
      cases settled : early.settled? cell with
      | some run => exact Heap.settled?_eq_some lives settled _
      | none =>
        exact (Handlers.Lasting.forceCell cell).heeds (handlers_last routines bound)
          (agree.later lives)
    · exact (Handlers.Lasting.plan (routines routine) []).heeds (handlers_last routines bound)
        (agree.later lives)

/-- Forcing a cell that is waiting starts its work once. -/
theorem Heap.startsOnce (bound : Nat) {heap : Heap α ε ρ} {cell : CellId} {work : Work α ε ρ}
    (found : heap.cells[cell]? = some ⟨work, .waiting⟩) :
    heap.StartsOnce routines bound cell work := by
  have running := status?_start (lt_size_of_getElem? found)
  obtain ⟨other, there⟩ := exists_of_status? running
  have lives := (Handlers.Lasting.work work).lasts (handlers_last routines bound) (heap.start cell)
  have once : ∀ {after : Heap α ε ρ}, (heap.start cell).Lives after →
      after.starts.count cell = heap.starts.count cell + 1 := by
    intro after lives
    have same := lives.course.count_starts there fun impossible => nomatch impossible
    rw [same, starts_start, List.count_append, List.count_singleton,
      if_pos (beq_self_eq_true cell)]
  refine ⟨fun started => ?_, fun ran => ?_, fun ran => ?_⟩
  · cases started
    refine ⟨?_, (Handlers.Lasting.work work).heeds (handlers_last routines bound)
      (handlers_agreeFrom routines _ bound)⟩
    have known : (heap.start cell).settled? cell = some (Run.fault .reentrant) := by
      rw [settled?, running]
    exact known
  · obtain ⟨finished, worked, rfl⟩ := (forceCell_waiting_eq_ok found).mp ran
    rw [worked] at lives
    have lives : (heap.start cell).Lives finished := lives
    obtain ⟨_, still⟩ := exists_of_status? (lives.running running)
    refine ⟨?_, (congrArg _ (starts_mark finished cell _)).trans (once lives)⟩
    rw [status?, getElem?_mark, if_pos rfl, still]
    rfl
  · rw [(forceCell_waiting_eq_error found).mp ran] at lives
    exact ⟨lives.running running, once lives⟩

namespace Session

variable {handlers others : Handlers α ε ρ}

section Courses

variable (last : handlers.Last)

include last

/-- Making a stream takes the heap of a session through a course. -/
theorem keep_lives {run : Handlers α ε ρ → Run α ε ρ (Stream α)} (lasting : Handlers.Lasting run)
    (session : Session α ε ρ) : session.heap.Lives (session.keep (run handlers)).2.heap := by
  obtain ⟨streams, iterators, heap⟩ := session
  have lives := lasting.lasts last heap
  simp only [keep]
  cases ran : run handlers heap <;> rw [ran] at lives <;> exact lives

/-- A pull takes the heap through a course. -/
theorem next_lives (bound : Nat) (iterator : Stream.Iterator α) (heap : Heap α ε ρ) :
    heap.Lives (iterator.next handlers bound heap).heap := by
  have lives := (Handlers.Lasting.uncons? bound iterator.pending).lasts last heap
  unfold Stream.Iterator.next
  rcases ran : iterator.pending.uncons? handlers bound heap with ⟨_ | _, after⟩ | ⟨stop, after⟩
  all_goals
    rw [ran] at lives
    exact lives

/-- An action takes the heap of a session through a course. -/
theorem performWith_lives (bound : Nat) (action : Action α ε ρ) (session : Session α ε ρ) :
    session.heap.Lives (session.performWith handlers bound action).2.heap := by
  cases action with
  | make plan => exact keep_lives last (.plan plan _) session
  | force number => exact keep_lives last (.step _) session
  | drop number => exact .refl _
  | iterate number => exact .refl _
  | pull number =>
    obtain ⟨streams, iterators, heap⟩ := session
    have lives := next_lives last bound (iterators.getD number ⟨.empty⟩) heap
    simp only [performWith]
    split <;> exact lives

/-- Actions take the heap of a session through a course. -/
theorem performAllWith_lives (bound : Nat) (actions : List (Action α ε ρ))
    (session : Session α ε ρ) :
    session.heap.Lives (performAllWith handlers bound actions session).2.heap := by
  induction actions generalizing session with
  | nil => exact .refl _
  | cons action actions later =>
    exact (performWith_lives last bound action session).trans (later _)

/-- An action uses its handlers only on heaps that the heap of the session comes to. -/
theorem performWith_heeds {session : Session α ε ρ}
    (agree : Handlers.AgreeFrom session.heap handlers others) (bound : Nat)
    (action : Action α ε ρ) :
    session.performWith handlers bound action = session.performWith others bound action := by
  have keeps : ∀ {run : Handlers α ε ρ → Run α ε ρ (Stream α)}, Handlers.Lasting run →
      session.keep (run handlers) = session.keep (run others) :=
    fun lasting => by simp only [keep, lasting.heeds last agree]
  cases action with
  | make plan => exact keeps (.plan plan _)
  | force number => exact keeps (.step _)
  | drop number => rfl
  | iterate number => rfl
  | pull number =>
    simp only [performWith, Stream.Iterator.next,
      (Handlers.Lasting.uncons? bound _).heeds last agree]

/-- Actions use their handlers only on heaps that the heap of the session comes to. -/
theorem performAllWith_heeds {session : Session α ε ρ}
    (agree : Handlers.AgreeFrom session.heap handlers others) (bound : Nat)
    (actions : List (Action α ε ρ)) :
    performAllWith handlers bound actions session =
      performAllWith others bound actions session := by
  induction actions generalizing session with
  | nil => rfl
  | cons action actions later =>
    have lives := performWith_lives last bound action session
    simp only [performAllWith]
    rw [← performWith_heeds last agree, later (agree.later lives)]

end Courses

end Session

/-- Cells of an orderly heap go on as they should wherever the heap comes to. -/
theorem Heap.Lives.goesOn {early late : Heap α ε ρ} (orderly : early.Orderly)
    (lives : early.Lives late) : early.GoesOn late where
  course := lives.course
  forward := lives.course.forward
  ready {cell stream status} found := by
    have told := orderly.course lives.course cell
    rw [found] at told
    generalize late.starts.count cell = number at told ⊢
    cases told with
    | ready => exact ⟨rfl, rfl⟩
    | waiting unknown => exact absurd rfl (unknown stream)
    | begun unknown => exact absurd rfl (unknown stream)
  once := (orderly.course lives.course).once
  done {cell stream} known := by
    obtain ⟨_, found⟩ := exists_of_status? known
    obtain ⟨_, there⟩ := exists_of_status? (lives.course.done known)
    exact ⟨fun handlers => forceCell_done handlers there,
      lives.course.count_starts found fun impossible => nomatch impossible⟩
  running {cell} known := by
    obtain ⟨_, there⟩ := exists_of_status? (lives.running known)
    refine ⟨fun handlers => ⟨.reentrant, forceCell_running handlers there, rfl⟩, ?_⟩
    have told := orderly.course lives.course cell
    rw [there] at told
    generalize late.starts.count cell = number at told ⊢
    cases told
    rfl

namespace Session

/-- Cells live once. Whatever a session does, what happens to its heap is one move of a cell after
another; every cell goes forward only, its work is started once at most, and a cell that is done or
under way is so for good, as everything that is run later finds without looking. And wherever a cell
is waiting, forcing it starts its work once, and while that is under way the cell cannot be forced,
at any depth; whether the work comes to its end or is given up, it is not started again. -/
theorem cells_live_once (routines : ρ → Plan α ε ρ) (bound : Nat)
    (earlier later : List (Action α ε ρ)) :
    let early := (performAll routines bound earlier empty).2
    let late := (performAll routines bound later early).2
    early.heap.GoesOn late.heap ∧
      performAll routines bound later early =
        performAllWith (handlersAfter routines early.heap bound) bound later early ∧
      ∀ {heap : Heap α ε ρ} {cell : CellId} {work : Work α ε ρ},
        heap.cells[cell]? = some ⟨work, .waiting⟩ → heap.StartsOnce routines bound cell work := by
  intro early late
  have last := handlers_last routines bound
  have first : empty.heap.Lives early.heap := performAllWith_lives last bound earlier empty
  have lives : early.heap.Lives late.heap := performAllWith_lives last bound later early
  have orderly : early.heap.Orderly := Heap.orderly_empty.course first.course
  have agree := handlers_agreeFrom routines early.heap bound
  exact ⟨lives.goesOn orderly, performAllWith_heeds last agree bound later,
    fun found => Heap.startsOnce routines bound found⟩

section Failing

/-- A suspension that forces itself, one that gives up and two of a value are made, and all but the
last of them are forced. -/
def forcedAtFirst : List (Action Nat Empty Empty) :=
  [.make (.knot (.force (.ref 0))), .make (.suspend (.fail (.raised "given up"))),
    .make (.suspend (.unit 1)), .make (.suspend (.unit 2)), .force 0, .force 1, .force 2]

/-- The first three are forced again, also through a clone and a merge. -/
def forcedAgain : List (Action Nat Empty Empty) :=
  [.force 0, .make (.ref 2), .force 5, .make (.merge (.ref 2) (.ref 1)), .force 7, .force 1]

/-- Cells whose work forces them or gives up are not started again, and a cell that holds its stream
gives it to everybody. -/
theorem forced_once_and_again :
    let early := (performAll nofun 9 forcedAtFirst empty).2
    let late := (performAll nofun 9 forcedAgain early).2
    late.heap.starts = [0, 1, 2, 6] ∧
      (∀ cell ∈ [0, 1], ∀ handlers, ∃ fault,
        forceCell handlers cell late.heap = .error (.fault fault) late.heap ∧
          fault.message = "Deferred stream forced while it was being computed") ∧
      (∀ handlers, forceCell handlers 2 late.heap = .ok (.cons 1 4) late.heap) ∧
      ∃ work, late.heap.StartsOnce nofun 9 3 work := by
  intro early late
  have started : late.heap.starts = [0, 1, 2, 6] := by decide +kernel
  have looped : early.heap.status? 0 = some .running := by rfl
  have failed : early.heap.status? 1 = some .running := by rfl
  have holds : early.heap.status? 2 = some (.done (.cons 1 4)) := by rfl
  have waits : late.heap.status? 3 = some .waiting := by rfl
  obtain ⟨goesOn, _, starts⟩ := cells_live_once _ 9 forcedAtFirst forcedAgain
  obtain ⟨work, waiting⟩ := Heap.exists_of_status? waits
  refine ⟨started, fun cell member => ?_, (goesOn.done holds).1, work, starts waiting⟩
  rcases List.mem_cons.mp member with rfl | member
  · exact (goesOn.running looped).1
  · cases List.mem_singleton.mp member
    exact (goesOn.running failed).1

end Failing

end Session

end Relational
