import Relational.Proofs.Stream.LifeCycle
import Relational.Stream.Session
import Relational.Stream.Steps

/-!
# What runs keep

Some cells are free to be forced, and the streams that refer to free cells only are all that a run
is given. If what holds of heaps is left alone by making cells, by reporting events that may be
reported and by doing ordinary work, then it is left alone by carrying out any plan, and every
stream that is made refers to free cells only. This is proved once for all such properties; what is
left to show of a property is what it says of each way of changing a heap, and of those cells whose
work is not ordinary.
-/
namespace Relational

/-!
## The calls of a function

The function that a flat map applies to the values of a stream reports each call, so that the calls
stand among the events of a heap. The calls are all its own where nothing else reports such events:
no plan that is carried out, no routine, and no work that was put off before.
-/

section Calling

variable {α ε ρ : Type}

/-- How the calls of a function are told from all other events. -/
structure Marking (α ε : Type) where
  /-- The event of a call. -/
  mark : α → ε
  /-- The value of the call that an event stands for, if it stands for one. -/
  unmark : ε → Option α
  /-- The event of a call stands for the call. -/
  unmark_mark : ∀ value, unmark (mark value) = some value

namespace Marking

variable (marking : Marking α ε)

/-- The event is no call. -/
def Other (event : ε) : Prop := marking.unmark event = none

/-- The function that reports the call before it makes a stream. -/
def applied (body : α → Plan α ε ρ) (value : α) : Plan α ε ρ :=
  .report (marking.mark value) (body value)

/-- The values of the calls among some events, first things first. -/
def among (events : List ε) : List α := events.filterMap marking.unmark

/-- The values that the function has been applied to, first things first. -/
def calls (heap : Heap α ε ρ) : List α := marking.among heap.events

end Marking

section Reporting

variable (may : ε → Prop)

/-- Whatever a source reports is one of these events. -/
def Source.Reports (source : Source α ε) : Prop :=
  ∀ position, ∀ event ∈ source.report position, may event

/-- Whatever is reported by carrying out the plan, now or later, is one of these events, but for
what its routines report. -/
def Plan.Reports : Plan α ε ρ → Prop
  | empty | unit _ | ref _ | fail _ | call _ => True
  | lazy source => source.Reports may
  | cons _ next | suspend next | ready next | knot next | force next => next.Reports
  | merge first second | share first second => first.Reports ∧ second.Reports
  | mapcat source body => source.Reports ∧ ∀ value, (body value).Reports
  | report event next => may event ∧ next.Reports
  | computed plan => (plan ()).Reports

/-- Whatever is reported by doing the work is one of these events. -/
def Work.Reports : Work α ε ρ → Prop
  | known _ | merge _ _ => True
  | plan content _ => content.Reports may
  | mapcat _ body _ => ∀ value, (body value).Reports may
  | pull source _ => source.Reports may

/-- Whatever is reported by work that is waiting is one of these events. -/
def Heap.Reports (heap : Heap α ε ρ) : Prop :=
  ∀ {cell : CellId} {work : Work α ε ρ}, heap.cells[cell]? = some ⟨work, .waiting⟩ →
    work.Reports may

/-- The action makes streams only by plans that report such events. -/
def Action.Reports : Action α ε ρ → Prop
  | make plan => plan.Reports may
  | force _ | drop _ | iterate _ | pull _ => True

end Reporting

/-- The values of a stream begin with these ones. -/
def Stream.Begins (routines : ρ → Plan α ε ρ) (heap : Heap α ε ρ) (stream : Stream α)
    (values : List α) : Prop :=
  ∃ count steps, stream.Shows routines heap count steps ∧ steps.values = values

end Calling

/-! ## Runs that keep what holds -/

variable {α ε ρ γ γ' : Type} {free : CellId → Prop} {may : ε → Prop}

/-- The stream refers to free cells only. -/
def Stream.Refers (free : CellId → Prop) : Stream α → Prop
  | empty => True
  | cons _ tail => free tail
  | suspended cell => free cell

/-- The work refers to free cells only. -/
def Work.Refers (free : CellId → Prop) : Work α ε ρ → Prop
  | known stream => stream.Refers free
  | plan _ scope => ∀ stream ∈ scope, stream.Refers free
  | merge first second => free first ∧ free second
  | mapcat source _ scope => free source ∧ ∀ stream ∈ scope, stream.Refers free
  | pull _ _ => True

/-- Where all cells are free a stream refers to free cells only. -/
theorem Stream.refers_of_all (all : ∀ cell, free cell) (stream : Stream α) :
    stream.Refers free := by
  cases stream with
  | empty => trivial
  | cons head tail => exact all tail
  | suspended cell => exact all cell

/-- Where all cells are free work refers to free cells only. -/
theorem Work.refers_of_all (all : ∀ cell, free cell) (work : Work α ε ρ) : work.Refers free := by
  cases work with
  | known stream => exact stream.refers_of_all all
  | plan content scope => exact fun stream _ => stream.refers_of_all all
  | merge first second => exact ⟨all first, all second⟩
  | mapcat source body scope => exact ⟨all source, fun stream _ => stream.refers_of_all all⟩
  | pull source position => trivial

/-- A run leaves a heap of which something holds, and what it makes is right. -/
structure Run.Leaves (kept : Heap α ε ρ → Prop) (right : γ → Prop) (run : Run α ε ρ γ)
    (heap : Heap α ε ρ) : Prop where
  /-- It holds of the heap, whatever the run comes to. -/
  kept : kept (left (run heap))
  /-- What is made is right. -/
  right : ∀ {result : γ} {after : Heap α ε ρ}, run heap = .ok result after → right result

/-- A run keeps what holds of heaps. -/
def Run.Keeps (kept : Heap α ε ρ → Prop) (right : γ → Prop) (run : Run α ε ρ γ) : Prop :=
  ∀ heap, kept heap → run.Leaves kept right heap

/-- Ordinary work and all that it is made of leave alone what holds of a heap. -/
structure Heap.Stable (free : CellId → Prop) (may : ε → Prop) (kept : Heap α ε ρ → Prop) :
    Prop where
  /-- The next cell is a free one. -/
  fresh : ∀ {heap}, kept heap → free heap.cells.size
  /-- A cell is made for ordinary work. -/
  defer : ∀ {heap work}, kept heap → work.Reports may → work.Refers free →
    kept (heap.push ⟨work, .waiting⟩)
  /-- A cell is made for a known stream. -/
  known : ∀ {heap stream}, kept heap → stream.Refers free →
    kept (heap.push ⟨.known stream, .done stream⟩)
  /-- An event is reported that may be reported. -/
  record : ∀ {heap event}, kept heap → may event →
    kept (heap.withTrace (heap.trace.push (.reported event)))
  /-- Work that is waiting is started. -/
  start : ∀ {heap cell work}, kept heap → heap.cells[cell]? = some ⟨work, .waiting⟩ →
    kept (heap.start cell)
  /-- Work that is under way comes to its end. -/
  finish : ∀ {heap cell stream}, kept heap → heap.status? cell = some .running →
    stream.Refers free → kept (heap.mark cell (.done stream))
  /-- A free cell holds a stream that refers to free cells only. -/
  content : ∀ {heap cell work stream}, kept heap → free cell →
    heap.cells[cell]? = some ⟨work, .done stream⟩ → stream.Refers free

namespace Run

variable {kept : Heap α ε ρ → Prop} {heap : Heap α ε ρ} {right : γ → Prop} {right' : γ' → Prop}

/-- What comes after a run that comes to a result. -/
theorem bind_of_ok {run : Run α ε ρ γ} {next : γ → Run α ε ρ γ'} {result : γ}
    {after : Heap α ε ρ} (ran : run heap = .ok result after) :
    (run >>= next) heap = next result after := by
  rw [bind_apply, ran]

/-- Nothing comes after a run that is given up. -/
theorem bind_of_error {run : Run α ε ρ γ} {next : γ → Run α ε ρ γ'} {stop : Stop}
    {after : Heap α ε ρ} (ran : run heap = .error stop after) :
    (run >>= next) heap = .error stop after := by
  rw [bind_apply, ran]

/-- A right result is made without changing the heap. -/
theorem Keeps.pure {result : γ} (is : right result) :
    (Pure.pure result : Run α ε ρ γ).Keeps kept right := by
  refine fun heap holds => ⟨holds, fun made => ?_⟩
  cases made
  exact is

/-- Giving up leaves the heap. -/
theorem Keeps.throw (stop : Stop) : (throw stop : Run α ε ρ γ).Keeps kept right :=
  fun _ holds => ⟨holds, fun made => nomatch made⟩

/-- What a run leaves that comes to a result. -/
theorem Leaves.of_ok {run : Run α ε ρ γ} {result : γ} {after : Heap α ε ρ}
    (ran : run heap = .ok result after) (holds : kept after) (is : right result) :
    run.Leaves kept right heap := by
  refine ⟨by rw [ran]; exact holds, fun made => ?_⟩
  cases ran.symm.trans made
  exact is

/-- What a run leaves that is given up. -/
theorem Leaves.of_error {run : Run α ε ρ γ} {stop : Stop} {after : Heap α ε ρ}
    (ran : run heap = .error stop after) (holds : kept after) : run.Leaves kept right heap :=
  ⟨by rw [ran]; exact holds, fun made => nomatch ran.symm.trans made⟩

/-- What a run leaves that comes to the same as another run on another heap. -/
theorem Leaves.of_eq {run other : Run α ε ρ γ} {before : Heap α ε ρ}
    (same : run before = other heap) (leaves : other.Leaves kept right heap) :
    run.Leaves kept right before :=
  ⟨same ▸ leaves.kept, fun made => leaves.right (same.symm.trans made)⟩

/-- One run after another, where the first one leaves what is enough for the second one to start
from, and for what is left if there is none. -/
theorem Leaves.bind {middle : Heap α ε ρ → Prop} {run : Run α ε ρ γ} {next : γ → Run α ε ρ γ'}
    (first : run.Leaves middle right heap)
    (stopped : ∀ {heap}, middle heap → kept heap)
    (second : ∀ {result heap}, right result → middle heap → (next result).Leaves kept right' heap) :
    (run >>= next).Leaves kept right' heap := by
  obtain ⟨holds, is⟩ := first
  cases ran : run heap with
  | ok result after =>
    rw [ran] at holds
    exact .of_eq (bind_of_ok ran) (second (is ran) holds)
  | error stop after =>
    rw [ran] at holds
    exact .of_error (bind_of_error ran) (stopped holds)

/-- One run after another. -/
theorem Keeps.bind {run : Run α ε ρ γ} {next : γ → Run α ε ρ γ'} (first : run.Keeps kept right)
    (second : ∀ {result}, right result → (next result).Keeps kept right') :
    (run >>= next).Keeps kept right' :=
  fun heap holds => (first heap holds).bind id fun is holds => second is _ holds

end Run

namespace Heap.Stable

variable {kept : Heap α ε ρ → Prop} (stable : Heap.Stable free may kept)

include stable

/-- Work is put off; its cell is a free one. -/
theorem keeps_defer (work : Work α ε ρ) (reports : work.Reports may) (refers : work.Refers free) :
    (Run.defer work).Keeps kept free := by
  refine fun heap holds => ⟨stable.defer holds reports refers, fun made => ?_⟩
  cases made
  exact stable.fresh holds

/-- Work is put off behind a value. -/
theorem keeps_cons (head : α) (work : Work α ε ρ) (reports : work.Reports may)
    (refers : work.Refers free) : (do
      let tail ← Run.defer work
      pure (.cons head tail) : Run α ε ρ (Stream α)).Keeps kept (Stream.Refers free) :=
  (stable.keeps_defer work reports refers).bind fun is => .pure is

/-- Work is put off behind a suspension. -/
theorem keeps_suspended (work : Work α ε ρ) (reports : work.Reports may)
    (refers : work.Refers free) : (do
      let cell ← Run.defer work
      pure (.suspended cell) : Run α ε ρ (Stream α)).Keeps kept (Stream.Refers free) :=
  (stable.keeps_defer work reports refers).bind fun is => .pure is

/-- A known stream is kept in a free cell. -/
theorem keeps_known {stream : Stream α} (refers : stream.Refers free) :
    (Run.known stream : Run α ε ρ CellId).Keeps kept free := by
  refine fun heap holds => ⟨stable.known holds refers, fun made => ?_⟩
  cases made
  exact stable.fresh holds

/-- Events are reported. -/
theorem keeps_report {events : List ε} (reports : ∀ event ∈ events, may event) :
    (Run.report events : Run α ε ρ Unit).Keeps kept fun _ => True := by
  induction events with
  | nil => exact .pure trivial
  | cons event events others =>
    obtain ⟨first, reports⟩ := List.forall_mem_cons.mp reports
    have one : (Run.record (.reported event) : Run α ε ρ Unit).Keeps kept fun _ => True :=
      fun heap holds => ⟨stable.record holds first, fun _ => trivial⟩
    exact one.bind fun _ => others reports

/-- A source is asked. -/
theorem keeps_pull {source : Source α ε} (reports : source.Reports may) (position : Nat) :
    (source.pull position : Run α ε ρ (Stream α)).Keeps kept (Stream.Refers free) := by
  refine (stable.keeps_report (reports position)).bind fun _ => ?_
  cases source.item position with
  | none => exact .pure trivial
  | some item => exact stable.keeps_cons item (.pull source (position + 1)) reports trivial

end Heap.Stable

/-- What is left alone for each choice is left alone as what holds for some choice. -/
theorem Heap.Stable.exists {ι : Type} {kept : ι → Heap α ε ρ → Prop}
    (stable : ∀ choice, Heap.Stable free may (kept choice)) :
    Heap.Stable free may fun heap => ∃ choice, kept choice heap where
  fresh := fun ⟨choice, holds⟩ => (stable choice).fresh holds
  defer := fun ⟨choice, holds⟩ reports refers =>
    ⟨choice, (stable choice).defer holds reports refers⟩
  known := fun ⟨choice, holds⟩ refers => ⟨choice, (stable choice).known holds refers⟩
  record := fun ⟨choice, holds⟩ reports => ⟨choice, (stable choice).record holds reports⟩
  start := fun ⟨choice, holds⟩ found => ⟨choice, (stable choice).start holds found⟩
  finish := fun ⟨choice, holds⟩ running refers =>
    ⟨choice, (stable choice).finish holds running refers⟩
  content := fun ⟨choice, holds⟩ => (stable choice).content holds

/-- Forcing free cells and calling routines keeps what holds of heaps. -/
structure Handlers.Keep (free : CellId → Prop) (kept : Heap α ε ρ → Prop)
    (handlers : Handlers α ε ρ) : Prop where
  /-- Forcing a free cell does. -/
  force : ∀ {cell}, free cell → (handlers.force cell).Keeps kept (Stream.Refers free)
  /-- Calling a routine does. -/
  call : ∀ routine, (handlers.call routine).Keeps kept (Stream.Refers free)

namespace Handlers

variable {kept : Heap α ε ρ → Prop} {handlers : Handlers α ε ρ}

/-- A step is taken. -/
theorem Keep.step (keep : handlers.Keep free kept) {stream : Stream α}
    (refers : stream.Refers free) : (stream.step handlers).Keeps kept (Stream.Refers free) := by
  cases stream with
  | empty => exact .pure trivial
  | cons head tail => exact keep.force refers
  | suspended cell => exact keep.force refers

/-- The next value is looked for. -/
theorem Keep.uncons? (keep : handlers.Keep free kept) (bound : Nat) {stream : Stream α}
    (refers : stream.Refers free) : (stream.uncons? handlers bound).Keeps kept fun _ => True := by
  induction bound generalizing stream with
  | zero =>
    cases stream with
    | empty => exact .pure trivial
    | cons head tail => exact .pure trivial
    | suspended cell => exact .throw _
  | succ bound keeps =>
    cases stream with
    | empty => exact .pure trivial
    | cons head tail => exact .pure trivial
    | suspended cell => exact (keep.force refers).bind keeps

end Handlers

/-- What a flat map has made of a value goes before the rest, which is put off in a cell; where
nothing was made the rest is suspended. -/
def Stream.before (handlers : Handlers α ε ρ) (first : Stream α) (rest : CellId) :
    Run α ε ρ (Stream α) :=
  match first with
  | empty => pure (suspended rest)
  | first => first.mergeWith handlers rest

namespace Heap.Stable

variable {kept : Heap α ε ρ → Prop} (stable : Heap.Stable free may kept)
  {handlers : Handlers α ε ρ} (keep : handlers.Keep free kept)

include stable keep

/-- Streams are merged. -/
theorem keeps_mergeWith {first : Stream α} {second : CellId} (refers : first.Refers free)
    (is : free second) : (first.mergeWith handlers second).Keeps kept (Stream.Refers free) := by
  cases first with
  | empty => exact keep.force is
  | cons head tail => exact stable.keeps_cons head (.merge second tail) trivial ⟨is, refers⟩
  | suspended cell => exact stable.keeps_suspended (.merge second cell) trivial ⟨is, refers⟩

/-- Two streams are merged. -/
theorem keeps_merge {first second : Stream α} (refers : first.Refers free)
    (refers' : second.Refers free) :
    (first.merge handlers second).Keeps kept (Stream.Refers free) :=
  (stable.keeps_known refers').bind fun is => stable.keeps_mergeWith keep refers is

/-- What a flat map has made of a value goes before the rest. -/
theorem keeps_before {first : Stream α} {rest : CellId} (refers : first.Refers free)
    (is : free rest) : (first.before handlers rest).Keeps kept (Stream.Refers free) := by
  cases first with
  | empty => exact .pure is
  | cons => exact stable.keeps_mergeWith keep refers is
  | suspended => exact stable.keeps_mergeWith keep refers is

/-- The values of a stream are mapped. -/
theorem keeps_mapcatWith {body : α → Plan α ε ρ} {scope : List (Stream α)}
    {apply : α → Run α ε ρ (Stream α)} (reports : ∀ value, (body value).Reports may)
    (inside : ∀ stream ∈ scope, stream.Refers free)
    (applied : ∀ value, (apply value).Keeps kept (Stream.Refers free)) {source : Stream α}
    (refers : source.Refers free) :
    (source.mapcatWith handlers body scope apply).Keeps kept (Stream.Refers free) := by
  cases source with
  | empty => exact .pure trivial
  | cons head tail =>
    have deferred : (Run.defer (.mapcat tail body scope)).Keeps kept free :=
      stable.keeps_defer _ reports ⟨refers, inside⟩
    exact (applied head).bind fun made => deferred.bind fun is => stable.keeps_before keep made is
  | suspended cell =>
    exact stable.keeps_suspended (.mapcat cell body scope) reports ⟨refers, inside⟩

/-- A plan is carried out. The content of a knot may refer to its own cell, which is the next
one. -/
theorem keeps_plan {plan : Plan α ε ρ} (reports : plan.Reports may) {scope : List (Stream α)}
    (inside : ∀ stream ∈ scope, stream.Refers free) :
    (plan.eval handlers scope).Keeps kept (Stream.Refers free) := by
  induction plan generalizing scope with
  | empty => exact .pure trivial
  | ref index =>
    refine .pure ?_
    rw [List.getD_eq_getElem?_getD]
    cases found : scope[index]? with
    | none => trivial
    | some stream => exact inside stream (List.mem_of_getElem? found)
  | unit value =>
    have nothing : (Run.known .empty : Run α ε ρ CellId).Keeps kept free :=
      stable.keeps_known trivial
    exact nothing.bind fun is => .pure is
  | lazy source => exact stable.keeps_pull reports 0
  | cons head tail => exact stable.keeps_cons head (.plan tail scope) reports inside
  | suspend content => exact stable.keeps_suspended (.plan content scope) reports inside
  | knot content =>
    intro heap holds
    have inside : ∀ stream ∈ .suspended heap.cells.size :: scope, stream.Refers free :=
      List.forall_mem_cons.mpr ⟨stable.fresh holds, inside⟩
    exact .of_eq (by rfl) (stable.keeps_suspended (.plan content _) reports inside heap holds)
  | fail fault => exact .throw _
  | ready content keeps =>
    exact (keeps reports inside).bind fun refers => (stable.keeps_known refers).bind
      fun is => .pure is
  | merge left right keepsLeft keepsRight =>
    exact (keepsLeft reports.1 inside).bind fun refers => (keepsRight reports.2 inside).bind
      fun refers' => stable.keeps_merge keep refers refers'
  | mapcat source body keepsSource keepsBody =>
    exact (keepsSource reports.1 inside).bind fun refers => stable.keeps_mapcatWith keep reports.2
      inside (fun value => keepsBody value (reports.2 value) inside) refers
  | share stream body keepsStream keepsBody =>
    exact (keepsStream reports.1 inside).bind fun refers =>
      keepsBody reports.2 (List.forall_mem_cons.mpr ⟨refers, inside⟩)
  | force stream keeps => exact (keeps reports inside).bind fun refers => keep.step refers
  | report event next keeps =>
    have one : (Run.record (.reported event) : Run α ε ρ Unit).Keeps kept fun _ => True :=
      fun heap holds => ⟨stable.record holds reports.1, fun _ => trivial⟩
    exact one.bind fun _ => keeps reports.2 inside
  | computed plan keeps => exact keeps () reports inside
  | call routine => exact keep.call routine

/-- Ordinary work is done. -/
theorem keeps_work {work : Work α ε ρ} (reports : work.Reports may) (refers : work.Refers free) :
    (work.run handlers).Keeps kept (Stream.Refers free) := by
  cases work with
  | known stream => exact .pure refers
  | plan content scope => exact stable.keeps_plan keep reports refers
  | merge first second =>
    exact (keep.force refers.1).bind fun made => stable.keeps_mergeWith keep made refers.2
  | mapcat source body scope =>
    exact (keep.force refers.1).bind fun made => stable.keeps_mapcatWith keep reports refers.2
      (fun value => stable.keeps_plan keep (reports value) refers.2) made
  | pull source position => exact stable.keeps_pull reports position

omit keep in
/-- A cell is forced that is waiting, where its work is done rightly. -/
theorem leaves_of_work (last : handlers.Last) {heap : Heap α ε ρ} {cell : CellId}
    {work : Work α ε ρ} (found : heap.cells[cell]? = some ⟨work, .waiting⟩)
    (worked : (work.run handlers).Leaves kept (Stream.Refers free) (heap.start cell)) :
    (forceCell handlers cell).Leaves kept (Stream.Refers free) heap := by
  have lives := (Handlers.Lasting.work work).lasts last (heap.start cell)
  have running := Heap.status?_start (Heap.lt_size_of_getElem? found)
  obtain ⟨holds, right⟩ := worked
  cases ran : forceCell handlers cell heap with
  | ok made after =>
    obtain ⟨finished, worked, rfl⟩ := (forceCell_waiting_eq_ok found).mp ran
    rw [worked] at lives holds
    have right := right worked
    exact .of_ok ran (stable.finish holds (lives.running running) right) right
  | error stop after =>
    rw [(forceCell_waiting_eq_error found).mp ran] at holds
    exact .of_error ran holds

/-- A cell is forced that is free and, if it is waiting, waits for ordinary work. -/
theorem leaves_forceCell (last : handlers.Last) {heap : Heap α ε ρ} (holds : kept heap)
    {cell : CellId} (is : free cell)
    (ordinary : ∀ {work}, heap.cells[cell]? = some ⟨work, .waiting⟩ →
      work.Reports may ∧ work.Refers free) :
    (forceCell handlers cell).Leaves kept (Stream.Refers free) heap := by
  rcases found : heap.cells[cell]? with _ | ⟨work, _ | _ | stream⟩
  · exact .of_ok (forceCell_missing handlers found) holds trivial
  · obtain ⟨reports, refers⟩ := ordinary found
    exact stable.leaves_of_work last found
      (stable.keeps_work keep reports refers _ (stable.start holds found))
  · exact .of_error (forceCell_running handlers found) holds
  · exact .of_ok (forceCell_done handlers found) holds (stable.content holds is found)

omit keep in
/-- Where all work that free cells wait for is ordinary and routines are, all that is forced and
called keeps what holds of heaps. -/
theorem keep_handlers {routines : ρ → Plan α ε ρ}
    (report : ∀ routine, (routines routine).Reports may)
    (ordinary : ∀ {heap cell work}, kept heap → free cell →
      heap.cells[cell]? = some ⟨work, .waiting⟩ → work.Reports may ∧ work.Refers free)
    (bound : Nat) : (Relational.handlers routines bound).Keep free kept := by
  induction bound with
  | zero => exact ⟨fun _ => .throw _, fun _ => .throw _⟩
  | succ bound keep =>
    exact ⟨fun is heap holds => stable.leaves_forceCell keep (handlers_last routines bound) holds is
        (ordinary holds is),
      fun routine => stable.keeps_plan keep (report routine) fun _ impossible => nomatch impossible⟩

end Heap.Stable

namespace Session

variable {kept : Heap α ε ρ → Prop} {handlers : Handlers α ε ρ} {session : Session α ε ρ}

/-- Making a stream keeps what holds of the heap of a session. -/
theorem kept_keep {run : Run α ε ρ (Stream α)} {right : Stream α → Prop}
    (leaves : run.Leaves kept right session.heap) : kept (session.keep run).2.heap := by
  obtain ⟨streams, iterators, heap⟩ := session
  have holds := leaves.kept
  simp only [keep]
  cases ran : run heap <;> rw [ran] at holds <;> exact holds

variable (stable : Heap.Stable free may kept) (keep : handlers.Keep free kept)
  (all : ∀ cell, free cell) (bound : Nat)

include stable keep all

/-- Where all cells are free, whatever consumers do keeps what holds of the heap. -/
theorem kept_performWith {action : Action α ε ρ} (reports : action.Reports may)
    (holds : kept session.heap) : kept (session.performWith handlers bound action).2.heap := by
  cases action with
  | make plan =>
    exact kept_keep
      (stable.keeps_plan keep reports (fun stream _ => stream.refers_of_all all) _ holds)
  | force number => exact kept_keep (keep.step ((session.stream number).refers_of_all all) _ holds)
  | drop number => exact holds
  | iterate number => exact holds
  | pull number =>
    obtain ⟨streams, iterators, heap⟩ := session
    have holds := (keep.uncons? bound
      ((iterators.getD number ⟨.empty⟩).pending.refers_of_all all) heap holds).kept
    simp only [performWith, Stream.Iterator.next]
    rcases ran : (iterators.getD number ⟨.empty⟩).pending.uncons? handlers bound heap with
      ⟨_ | _, after⟩ | ⟨stop, after⟩
    all_goals
      rw [ran] at holds
      exact holds

/-- Where all cells are free, whatever consumers do one after another keeps what holds of the
heap. -/
theorem kept_performAllWith {actions : List (Action α ε ρ)}
    (report : ∀ action ∈ actions, action.Reports may) (holds : kept session.heap) :
    kept (performAllWith handlers bound actions session).2.heap := by
  induction actions generalizing session with
  | nil => exact holds
  | cons action actions later =>
    obtain ⟨reports, report⟩ := List.forall_mem_cons.mp report
    exact later report (kept_performWith stable keep all bound reports holds)

end Session

end Relational
