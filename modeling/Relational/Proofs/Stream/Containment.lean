import Relational.Proofs.Stream.Keeping

/-!
# Runs stay inside their heaps

On a closed heap a run that is given cells of the heap only makes cells for work on cells that are
there, stores streams of such cells and comes to one, and nothing that it does depends on what was
recorded before. So it leaves a closed heap, whether it comes to its end or is given up, and where
more was recorded before it does the same.
-/
namespace Relational

variable {α ε ρ γ γ' : Type}

/-- The cell is among so many. -/
def CellId.Within (size : Nat) (cell : CellId) : Prop := cell < size

/-- Streams on cells that are there are streams on cells among more. -/
theorem Stream.Within.mono_all {size more : Nat} {scope : List (Stream α)}
    (inside : ∀ stream ∈ scope, stream.Within size) (le : size ≤ more) :
    ∀ stream ∈ scope, stream.Within more :=
  fun stream member => (inside stream member).mono le

namespace Run

/-- The same outcome, with something else recorded. -/
def retrace (trace : Array (Occurrence ε)) :
    EStateM.Result Stop (Heap α ε ρ) γ → EStateM.Result Stop (Heap α ε ρ) γ
  | .ok result after => .ok result (after.withTrace trace)
  | .error stop after => .error stop (after.withTrace trace)

/-- How a run stays inside a heap, where a result is to be right among the cells that are there
then. -/
structure Stays (right : Nat → γ → Prop) (run : Run α ε ρ γ) (heap : Heap α ε ρ) : Prop where
  /-- The heap that is left is closed. -/
  closed : (left (run heap)).Closed
  /-- No cell has gone. -/
  grows : heap.cells.size ≤ (left (run heap)).cells.size
  /-- The result is right. -/
  result : ∀ {made : γ} {after : Heap α ε ρ}, run heap = .ok made after →
    right after.cells.size made
  /-- It does not matter what was recorded before. -/
  blind : ∀ trace, ∃ trace', run (heap.withTrace trace) = retrace trace' (run heap)

/-- A run stays inside every closed heap with so many cells. -/
def Inside (size : Nat) (right : Nat → γ → Prop) (run : Run α ε ρ γ) : Prop :=
  ∀ heap : Heap α ε ρ, heap.Closed → size ≤ heap.cells.size → run.Stays right heap

variable {size : Nat} {right : Nat → γ → Prop} {right' : Nat → γ' → Prop}

/-- Without doing anything the heap stays. -/
theorem Inside.pure {made : γ} (is : ∀ {more}, size ≤ more → right more made) :
    (pure made : Run α ε ρ γ).Inside size right := by
  refine fun heap closed le => ⟨closed, Nat.le_refl _, ?_, fun trace => ⟨trace, rfl⟩⟩
  intro result after ran
  cases ran
  exact is le

/-- Giving up leaves the heap. -/
theorem Inside.throw (stop : Stop) : (throw stop : Run α ε ρ γ).Inside size right := by
  refine fun heap closed le => ⟨closed, Nat.le_refl _, ?_, fun trace => ⟨trace, rfl⟩⟩
  intro result after ran
  cases ran

/-- A run stays inside a heap where it does what another run does from a heap with no fewer cells,
whatever was recorded before. -/
theorem Stays.of_eq {run other : Run α ε ρ γ} {heap started : Heap α ε ρ}
    (stays : other.Stays right started) (le : heap.cells.size ≤ started.cells.size)
    (same : run heap = other started)
    (traced : ∀ trace, ∃ trace', run (heap.withTrace trace) = other (started.withTrace trace')) :
    run.Stays right heap where
  closed := same ▸ stays.closed
  grows := same ▸ Nat.le_trans le stays.grows
  result ran := stays.result (same ▸ ran)
  blind trace := by
    obtain ⟨_, again⟩ := traced trace
    obtain ⟨trace', there⟩ := stays.blind _
    exact ⟨trace', again.trans (there.trans (congrArg (retrace trace') same.symm))⟩

/-- One run after another. -/
theorem Stays.bind {run : Run α ε ρ γ} {next : γ → Run α ε ρ γ'} {heap : Heap α ε ρ}
    (first : run.Stays right heap)
    (second : ∀ {made more}, heap.cells.size ≤ more → right more made →
      (next made).Inside more right') : (run >>= next).Stays right' heap := by
  obtain ⟨closed, grows, result, blind⟩ := first
  cases ran : run heap with
  | ok made middle =>
    rw [ran] at closed grows blind
    obtain ⟨closed', grows', result', blind'⟩ :=
      second grows (result ran) middle closed (Nat.le_refl _)
    have same : (run >>= next) heap = next made middle := bind_of_ok ran
    refine ⟨same ▸ closed', same ▸ Nat.le_trans grows grows', fun ran => result' (same ▸ ran), ?_⟩
    intro trace
    obtain ⟨trace', ran'⟩ := blind trace
    obtain ⟨trace'', same'⟩ := blind' trace'
    exact ⟨trace'', (bind_of_ok ran').trans (same'.trans (congrArg (retrace trace'') same.symm))⟩
  | error stop middle =>
    rw [ran] at closed grows blind
    have same : (run >>= next) heap = .error stop middle := bind_of_error ran
    refine ⟨same ▸ closed, same ▸ grows, ?_, fun trace => ?_⟩
    · intro made after ran
      rw [same] at ran
      cases ran
    · obtain ⟨trace', ran'⟩ := blind trace
      exact ⟨trace', (bind_of_error ran').trans (congrArg (retrace trace') same.symm)⟩

/-- One run after another. -/
theorem Inside.bind {run : Run α ε ρ γ} {next : γ → Run α ε ρ γ'} (first : run.Inside size right)
    (second : ∀ {made more}, size ≤ more → right more made → (next made).Inside more right') :
    (run >>= next).Inside size right' :=
  fun heap closed le => (first heap closed le).bind fun grows => second (Nat.le_trans le grows)

/-- A run that stays inside so many cells stays inside more. -/
theorem Inside.mono {run : Run α ε ρ γ} {more : Nat} (inside : run.Inside size right)
    (le : size ≤ more) : run.Inside more right :=
  fun heap closed enough => inside heap closed (Nat.le_trans le enough)

/-- A cell is made for work or a stream on cells that are there. -/
theorem Stays.allocate {heap : Heap α ε ρ} (closed : heap.Closed) {cell : Cell α ε ρ}
    (work : cell.work.Within (heap.cells.size + 1))
    (content : ∀ stream, cell.status = .done stream → stream.Within (heap.cells.size + 1)) :
    (Run.allocate cell).Stays CellId.Within heap := by
  refine ⟨closed.push work content, ?_, ?_, fun trace => ⟨trace, rfl⟩⟩
  · show heap.cells.size ≤ (heap.push cell).cells.size
    rw [Heap.size_push]
    exact Nat.le_succ _
  · intro made after ran
    cases ran
    show heap.cells.size < (heap.push cell).cells.size
    rw [Heap.size_push]
    exact Nat.lt_succ_self _

/-- Work is put off. -/
theorem Stays.defer {heap : Heap α ε ρ} (closed : heap.Closed) {work : Work α ε ρ}
    (within : work.Within (heap.cells.size + 1)) :
    (Run.defer work).Stays CellId.Within heap := by
  refine .allocate closed within fun stream impossible => ?_
  cases impossible

/-- Work is put off. -/
theorem Inside.defer {work : Work α ε ρ} (within : work.Within size) :
    (Run.defer work).Inside size CellId.Within :=
  fun _ closed le => .defer closed (within.mono (Nat.le_succ_of_le le))

/-- A known stream is kept. -/
theorem Inside.known {stream : Stream α} (within : stream.Within size) :
    (Run.known stream : Run α ε ρ CellId).Inside size CellId.Within := by
  refine fun heap closed le => .allocate closed (within.mono (Nat.le_succ_of_le le)) ?_
  intro other same
  cases same
  exact within.mono (Nat.le_succ_of_le le)

/-- Work is put off behind a value. -/
theorem inside_cons (head : α) {work : Work α ε ρ} (within : work.Within size) : (do
    let tail ← Run.defer work
    pure (.cons head tail) : Run α ε ρ (Stream α)).Inside size Stream.Within :=
  (Inside.defer within).bind fun _ is => .pure fun le => Nat.lt_of_lt_of_le is le

/-- Work is put off behind a suspension. -/
theorem inside_suspended {work : Work α ε ρ} (within : work.Within size) : (do
    let cell ← Run.defer work
    pure (.suspended cell) : Run α ε ρ (Stream α)).Inside size Stream.Within :=
  (Inside.defer within).bind fun _ is => .pure fun le => Nat.lt_of_lt_of_le is le

/-- Something is recorded. -/
theorem Inside.record (occurrence : Occurrence ε) :
    (Run.record occurrence : Run α ε ρ Unit).Inside size fun _ _ => True :=
  fun _ closed _ => ⟨closed.withTrace _, Nat.le_refl _, fun _ => trivial, fun _ => ⟨_, rfl⟩⟩

/-- Events are reported. -/
theorem Inside.report (events : List ε) :
    (Run.report events : Run α ε ρ Unit).Inside size fun _ _ => True := by
  induction events with
  | nil => exact .pure fun _ => trivial
  | cons event events others =>
    exact (Inside.record (.reported event)).bind fun le _ => others.mono le

/-- A source is asked. -/
theorem Inside.pull (source : Source α ε) (position : Nat) :
    (source.pull position : Run α ε ρ (Stream α)).Inside size Stream.Within := by
  refine (Inside.report _).bind fun _ _ => ?_
  cases source.item position with
  | none => exact .pure fun _ => trivial
  | some item => exact inside_cons item trivial

end Run

namespace Handlers

/-- Forcing cells that are there and calling routines stays inside heaps. -/
structure Contained (handlers : Handlers α ε ρ) : Prop where
  /-- Forcing does. -/
  force : ∀ {size cell : Nat}, cell < size → (handlers.force cell).Inside size Stream.Within
  /-- Calling does. -/
  call : ∀ {size : Nat} (routine : ρ), (handlers.call routine).Inside size Stream.Within

namespace Contained

variable {handlers : Handlers α ε ρ} (contained : handlers.Contained) {size : Nat}

include contained

/-- A step is taken. -/
theorem step {stream : Stream α} (within : stream.Within size) :
    (stream.step handlers).Inside size Stream.Within := by
  cases stream with
  | empty => exact .pure fun _ => trivial
  | cons head tail => exact contained.force within
  | suspended cell => exact contained.force within

/-- Streams are merged. -/
theorem mergeWith {first : Stream α} {second : CellId} (within : first.Within size)
    (there : second < size) : (first.mergeWith handlers second).Inside size Stream.Within := by
  cases first with
  | empty => exact contained.force there
  | cons head tail => exact Run.inside_cons head ⟨there, within⟩
  | suspended cell => exact Run.inside_suspended ⟨there, within⟩

/-- Two streams are merged. -/
theorem merge {first second : Stream α} (within : first.Within size)
    (within' : second.Within size) :
    (first.merge handlers second).Inside size Stream.Within :=
  (Run.Inside.known within').bind fun le there => contained.mergeWith (within.mono le) there

/-- What a flat map has made of a value goes before the rest. -/
theorem before {first : Stream α} {rest : CellId} (within : first.Within size)
    (there : rest < size) : (first.before handlers rest).Inside size Stream.Within := by
  cases first with
  | empty => exact .pure fun le => Nat.lt_of_lt_of_le there le
  | cons => exact contained.mergeWith within there
  | suspended => exact contained.mergeWith within there

/-- The values of a stream are mapped. -/
theorem mapcatWith {body : α → Plan α ε ρ} {scope : List (Stream α)}
    (inside : ∀ stream ∈ scope, stream.Within size) {apply : α → Run α ε ρ (Stream α)}
    (applied : ∀ value, (apply value).Inside size Stream.Within) {source : Stream α}
    (within : source.Within size) :
    (source.mapcatWith handlers body scope apply).Inside size Stream.Within := by
  cases source with
  | empty => exact .pure fun _ => trivial
  | cons head tail =>
    have rest : (Work.mapcat tail body scope).Within size := ⟨within, inside⟩
    exact (applied head).bind fun le made => (Run.Inside.defer (rest.mono le)).bind
      fun le there => contained.before (made.mono le) there
  | suspended cell => exact Run.inside_suspended ⟨within, inside⟩

/-- A plan is carried out. The content of a knot may refer to its own cell, which is the next
one. -/
theorem plan (plan : Plan α ε ρ) {scope : List (Stream α)}
    (inside : ∀ stream ∈ scope, stream.Within size) :
    (plan.eval handlers scope).Inside size Stream.Within := by
  induction plan generalizing size scope with
  | empty => exact .pure fun _ => trivial
  | ref index =>
    refine .pure fun le => ?_
    rw [List.getD_eq_getElem?_getD]
    cases found : scope[index]? with
    | none => trivial
    | some stream => exact (inside stream (List.mem_of_getElem? found)).mono le
  | unit value =>
    have nothing : (Run.known .empty : Run α ε ρ CellId).Inside size CellId.Within :=
      .known trivial
    exact nothing.bind fun _ there => .pure fun le => Nat.lt_of_lt_of_le there le
  | lazy source => exact .pull source 0
  | cons head tail => exact Run.inside_cons head inside
  | suspend content => exact Run.inside_suspended inside
  | knot content =>
    intro heap closed le
    have within : (Work.plan content (.suspended heap.cells.size :: scope)).Within
        (heap.cells.size + 1) := List.forall_mem_cons.mpr
      ⟨Nat.lt_succ_self _, Stream.Within.mono_all inside (Nat.le_succ_of_le le)⟩
    have made : (do
        let cell ← Run.defer (.plan content (.suspended heap.cells.size :: scope))
        pure (.suspended cell) : Run α ε ρ (Stream α)).Stays Stream.Within heap :=
      (Run.Stays.defer closed within).bind fun _ there =>
        .pure fun le => Nat.lt_of_lt_of_le there le
    exact made.of_eq (Nat.le_refl _) rfl fun trace => ⟨trace, rfl⟩
  | fail fault => exact .throw _
  | ready content kept =>
    exact (kept inside).bind fun _ within => (Run.Inside.known within).bind
      fun _ there => .pure fun le => Nat.lt_of_lt_of_le there le
  | merge left right keptLeft keptRight =>
    refine (keptLeft inside).bind fun le within => ?_
    exact (keptRight (Stream.Within.mono_all inside le)).bind
      fun le within' => contained.merge (within.mono le) within'
  | mapcat source body keptSource keptBody =>
    refine (keptSource inside).bind fun le within => ?_
    have inside := Stream.Within.mono_all inside le
    exact contained.mapcatWith inside (fun value => keptBody value inside) within
  | share stream body keptStream keptBody =>
    exact (keptStream inside).bind fun le within =>
      keptBody (List.forall_mem_cons.mpr ⟨within, Stream.Within.mono_all inside le⟩)
  | force stream kept => exact (kept inside).bind fun _ within => contained.step within
  | report event next kept =>
    exact (Run.Inside.record (.reported event)).bind fun le _ =>
      kept (Stream.Within.mono_all inside le)
  | computed plan kept => exact kept () inside
  | call routine => exact contained.call routine

/-- The work of a cell is done. -/
theorem work {work : Work α ε ρ} (within : work.Within size) :
    (work.run handlers).Inside size Stream.Within := by
  cases work with
  | known stream => exact .pure fun le => Stream.Within.mono within le
  | plan content scope => exact contained.plan content within
  | merge first second =>
    exact (contained.force within.1).bind fun le made =>
      contained.mergeWith made (Nat.lt_of_lt_of_le within.2 le)
  | mapcat source body scope =>
    refine (contained.force within.1).bind fun le made => ?_
    have inside := Stream.Within.mono_all within.2 le
    exact contained.mapcatWith inside (fun value => contained.plan (body value) inside) made
  | pull source position => exact .pull source position

/-- The next value is looked for. -/
theorem uncons? (bound : Nat) {stream : Stream α} (within : stream.Within size) :
    (stream.uncons? handlers bound).Inside size fun size found =>
      ∀ entry ∈ found, entry.2.Within size := by
  induction bound generalizing size stream with
  | zero =>
    cases stream with
    | empty => exact .pure fun _ entry impossible => absurd impossible (Option.not_mem_none entry)
    | cons head tail =>
      refine .pure fun le entry member => ?_
      cases member
      exact Nat.lt_of_lt_of_le within le
    | suspended cell => exact .throw _
  | succ bound kept =>
    cases stream with
    | empty => exact .pure fun _ entry impossible => absurd impossible (Option.not_mem_none entry)
    | cons head tail =>
      refine .pure fun le entry member => ?_
      cases member
      exact Nat.lt_of_lt_of_le within le
    | suspended cell => exact (contained.force within).bind fun _ made => kept made

end Contained

/-- A cell is forced by doing its work, on the heap where the cell is started, and by storing what
that comes to. -/
theorem Contained.forceCell {handlers : Handlers α ε ρ} (contained : handlers.Contained)
    {size cell : Nat} (there : cell < size) :
    (Relational.forceCell handlers cell).Inside size Stream.Within := by
  intro heap closed le
  rcases found : heap.cells[cell]? with _ | ⟨work, _ | _ | stream⟩
  · rw [Array.getElem?_eq_none_iff] at found
    omega
  · let finish : Run α ε ρ (Stream α) := do
      let stream ← work.run handlers
      Run.setStatus cell (.done stream)
      pure stream
    have started : (heap.start cell).Closed := closed.start cell
    have size : heap.cells.size ≤ (heap.start cell).cells.size := by rw [Heap.size_start]
    have stored : ∀ {stream : Stream α} {more : Nat}, stream.Within more → (do
        Run.setStatus cell (.done stream)
        pure stream : Run α ε ρ (Stream α)).Inside more Stream.Within := by
      refine fun {stream more} made heap closed le => ⟨?_, ?_, ?_, fun trace => ⟨trace, rfl⟩⟩
      · refine closed.mark fun other same => ?_
        cases same
        exact made.mono le
      · show heap.cells.size ≤ (heap.mark cell (.done stream)).cells.size
        rw [Heap.size_mark]
      · intro other after ran
        cases ran
        show stream.Within (heap.mark cell (.done stream)).cells.size
        rw [Heap.size_mark]
        exact made.mono le
    have stays : finish.Stays Stream.Within (heap.start cell) :=
      ((contained.work (closed.work found)).mono size (heap.start cell) started
        (Nat.le_refl _)).bind fun _ made => stored made
    refine stays.of_eq size (forceCell_waiting handlers found) fun trace => ?_
    have found : (heap.withTrace trace).cells[cell]? = some ⟨work, .waiting⟩ := found
    exact ⟨_, forceCell_waiting handlers found⟩
  · have fault : (throw (.fault .reentrant) : Run α ε ρ (Stream α)).Stays Stream.Within heap :=
      Run.Inside.throw _ heap closed le
    refine fault.of_eq (Nat.le_refl _) (forceCell_running handlers found) fun trace => ?_
    have found : (heap.withTrace trace).cells[cell]? = some ⟨work, .running⟩ := found
    exact ⟨trace, forceCell_running handlers found⟩
  · have known : (pure stream : Run α ε ρ (Stream α)).Stays Stream.Within heap :=
      Run.Inside.pure (fun le => (closed.content found).mono le) heap closed (Nat.le_refl _)
    refine known.of_eq (Nat.le_refl _) (forceCell_done handlers found) fun trace => ?_
    have found : (heap.withTrace trace).cells[cell]? = some ⟨work, .done stream⟩ := found
    exact ⟨trace, forceCell_done handlers found⟩

/-- Forcing and calling, nested to a bound, stays inside heaps. -/
theorem contained_handlers (routines : ρ → Plan α ε ρ) (bound : Nat) :
    (handlers routines bound).Contained := by
  induction bound with
  | zero => exact ⟨fun _ => .throw _, fun _ => .throw _⟩
  | succ bound contained =>
    refine ⟨fun there => contained.forceCell there, fun routine => ?_⟩
    exact contained.plan (routines routine) fun _ impossible => absurd impossible List.not_mem_nil

end Handlers

namespace Stream.Iterator

variable {handlers : Handlers α ε ρ}

section Found

variable {bound : Nat} {iterator : Iterator α} {heap after : Heap α ε ρ}

/-- A pull gives the next value where there is one. -/
theorem next_of_some {value : α} {rest : Stream α}
    (ran : iterator.pending.uncons? handlers bound heap = .ok (some (value, rest)) after) :
    iterator.next handlers bound heap = ⟨.ok (some value), ⟨rest⟩, after⟩ := by
  rw [next, ran]

/-- A pull comes to the end where there is no next value. -/
theorem next_of_none (ran : iterator.pending.uncons? handlers bound heap = .ok none after) :
    iterator.next handlers bound heap = ⟨.ok none, ⟨.empty⟩, after⟩ := by
  rw [next, ran]

/-- A pull is given up where looking for the next value is. -/
theorem next_of_error {stop : Stop}
    (ran : iterator.pending.uncons? handlers bound heap = .error stop after) :
    iterator.next handlers bound heap = ⟨.error stop, ⟨.empty⟩, after⟩ := by
  rw [next, ran]

end Found

/-- How a pull stays inside a heap. -/
structure PullStays (iterator : Iterator α) (handlers : Handlers α ε ρ) (bound : Nat)
    (heap : Heap α ε ρ) : Prop where
  /-- The heap that is left is closed. -/
  closed : (iterator.next handlers bound heap).heap.Closed
  /-- No cell has gone. -/
  grows : heap.cells.size ≤ (iterator.next handlers bound heap).heap.cells.size
  /-- The iterator stands at a stream of cells that are there. -/
  within : (iterator.next handlers bound heap).iterator.pending.Within
    (iterator.next handlers bound heap).heap.cells.size
  /-- It does not matter what was recorded before. -/
  blind : ∀ trace, ∃ trace', iterator.next handlers bound (heap.withTrace trace) =
    { iterator.next handlers bound heap with
      heap := (iterator.next handlers bound heap).heap.withTrace trace' }

/-- A pull stays inside a closed heap. -/
theorem pullStays (contained : handlers.Contained) (bound : Nat) {iterator : Iterator α}
    {heap : Heap α ε ρ} (closed : heap.Closed) (within : iterator.pending.Within heap.cells.size) :
    iterator.PullStays handlers bound heap := by
  obtain ⟨closed, grows, found, blind⟩ :=
    contained.uncons? bound within heap closed (Nat.le_refl _)
  cases ran : iterator.pending.uncons? handlers bound heap with
  | ok made after =>
    rw [ran] at closed grows blind
    have found := found ran
    cases made with
    | none =>
      have same := next_of_none ran
      refine ⟨same ▸ closed, same ▸ grows, same ▸ trivial, fun trace => ?_⟩
      obtain ⟨trace', again⟩ := blind trace
      exact ⟨trace', by rw [same, next_of_none again]⟩
    | some entry =>
      obtain ⟨value, rest⟩ := entry
      have same := next_of_some ran
      refine ⟨same ▸ closed, same ▸ grows, same ▸ found (value, rest) rfl, fun trace => ?_⟩
      obtain ⟨trace', again⟩ := blind trace
      exact ⟨trace', by rw [same, next_of_some again]⟩
  | error stop after =>
    rw [ran] at closed grows blind
    have same := next_of_error ran
    refine ⟨same ▸ closed, same ▸ grows, same ▸ trivial, fun trace => ?_⟩
    obtain ⟨trace', again⟩ := blind trace
    exact ⟨trace', by rw [same, next_of_error again]⟩

end Stream.Iterator

end Relational
