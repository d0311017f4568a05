import Relational.Proofs.Stream.LifeCycle
import Relational.Stream.Tame

/-!
# Forcing ends where plans are tame

In a tidy heap work is tame and names only cells that are older than its own. Carrying out a tame
plan forces nothing that is waiting, so forcing a cell forces older cells only: the number of the
cell is the measure by which forcing ends, and it cannot come to a cell that is under way as long as
those are newer. New cells name what is there when they are made, so heaps stay tidy.
-/
namespace Relational

variable {α ε ρ γ γ' : Type} {good : α → Prop} {fine : ρ → Prop} {excuse : Fault}

namespace Heap

variable {heap before after : Heap α ε ρ} {cell : CellId} {work : Work α ε ρ} {status : Status α}

/-- Nothing was started in between. -/
theorem Opens.of_eq {limit : Nat} (same : after.starts = before.starts) :
    before.Opens limit after :=
  ⟨[], by rw [same, List.append_nil], fun _ member => nomatch member⟩

/-- What was started below one limit and then below another was started below both. -/
theorem Opens.trans {first second third : Heap α ε ρ} {limit : Nat}
    (early : first.Opens limit second) (late : second.Opens limit third) :
    first.Opens limit third := by
  obtain ⟨started, same, below⟩ := early
  obtain ⟨started', same', below'⟩ := late
  refine ⟨started ++ started', by rw [same', same, List.append_assoc], fun cell member => ?_⟩
  exact (List.mem_append.mp member).elim (below cell) (below' cell)

/-- What was started below a limit was started below a larger one. -/
theorem Opens.mono {limit more : Nat} (le : limit ≤ more) (opens : before.Opens limit after) :
    before.Opens more after := by
  obtain ⟨started, same, below⟩ := opens
  exact ⟨started, same, fun cell member => Nat.lt_of_lt_of_le (below cell member) le⟩

/-- No cell has gone, and the same work is under way. -/
abbrev Rests (before after : Heap α ε ρ) : Prop := before.Grows .cell after .cell

/-- Work is tame and names only older cells, and streams name cells that are there. -/
structure Tidy (good : α → Prop) (fine : ρ → Prop) (excuse : Fault) (heap : Heap α ε ρ) :
    Prop where
  /-- Work is tame. -/
  tame : ∀ {cell : CellId} {found : Cell α ε ρ}, heap.cells[cell]? = some found →
    found.work.Tame good fine excuse
  /-- Work names only cells that are older than its own. -/
  older : ∀ {cell : CellId} {found : Cell α ε ρ}, heap.cells[cell]? = some found →
    found.work.Within cell
  /-- Streams have good values in front. -/
  front : ∀ {cell : CellId} {work : Work α ε ρ} {stream : Stream α},
    heap.cells[cell]? = some ⟨work, .done stream⟩ → stream.Front good
  /-- Streams name cells that are there. -/
  content : ∀ {cell : CellId} {work : Work α ε ρ} {stream : Stream α},
    heap.cells[cell]? = some ⟨work, .done stream⟩ → stream.Within heap.cells.size

/-- A heap without cells is tidy. -/
theorem tidy_empty : (empty : Heap α ε ρ).Tidy good fine excuse :=
  ⟨fun found => (nomatch found), fun found => (nomatch found), fun found => (nomatch found),
    fun found => (nomatch found)⟩

/-- A heap stays tidy with one more cell whose work is tame and names cells that are there. -/
theorem Tidy.push (tidy : heap.Tidy good fine excuse) (tame : work.Tame good fine excuse)
    (within : work.Within heap.cells.size)
    (content : ∀ stream, status = .done stream →
      stream.Front good ∧ stream.Within heap.cells.size) :
    (heap.push ⟨work, status⟩).Tidy good fine excuse := by
  refine ⟨fun there => ?_, fun there => ?_, fun there => ?_, fun there => ?_⟩
  · rcases cases_of_push there with ⟨_, rfl⟩ | there
    · exact tame
    · exact tidy.tame there
  · rcases cases_of_push there with ⟨rfl, rfl⟩ | there
    · exact within
    · exact tidy.older there
  · rcases cases_of_push there with ⟨_, same⟩ | there
    · cases same
      exact (content _ rfl).1
    · exact tidy.front there
  · rw [size_push]
    rcases cases_of_push there with ⟨_, same⟩ | there
    · cases same
      exact (content _ rfl).2.mono (Nat.le_succ _)
    · exact (tidy.content there).mono (Nat.le_succ _)

/-- A heap stays tidy with a cell moved on. -/
theorem Tidy.mark (tidy : heap.Tidy good fine excuse)
    (content : ∀ stream, status = .done stream →
      stream.Front good ∧ stream.Within heap.cells.size) :
    (heap.mark cell status).Tidy good fine excuse := by
  refine ⟨fun there => ?_, fun there => ?_, fun there => ?_, fun there => ?_⟩
  · rcases cases_of_mark there with ⟨_, _, _, there⟩ | there
    · have tame := tidy.tame there
      exact tame
    · exact tidy.tame there
  · rcases cases_of_mark there with ⟨_, _, _, there⟩ | there
    · have older := tidy.older there
      exact older
    · exact tidy.older there
  · rcases cases_of_mark there with ⟨_, same, _⟩ | there
    · exact (content _ same.symm).1
    · exact tidy.front there
  · rw [size_mark]
    rcases cases_of_mark there with ⟨_, same, _⟩ | there
    · exact (content _ same.symm).2
    · exact tidy.content there

/-- Whatever is recorded a heap stays tidy. -/
theorem Tidy.withTrace (tidy : heap.Tidy good fine excuse) (trace : Array (Occurrence ε)) :
    (heap.withTrace trace).Tidy good fine excuse :=
  ⟨tidy.tame, tidy.older, tidy.front, tidy.content⟩

/-- A heap rests while a cell is made that is not under way. -/
theorem rests_push (made : Cell α ε ρ) (idle : made.status ≠ .running) :
    heap.Rests (heap.push made) := by
  have grows : heap.Grows .cell (heap.push made) (heap.extend .cell (.cell heap.cells.size)) :=
    .push .cell _ idle
  rw [extend, Function.update_eq_self] at grows
  exact grows

end Heap

/-- The value in front of a stream is good and the cells that the stream names are there. -/
def Stream.Sits (good : α → Prop) (heap : Heap α ε ρ) (stream : Stream α) : Prop :=
  stream.Front good ∧ stream.Within heap.cells.size

/-- The empty stream sits on every heap. -/
theorem Stream.sits_empty {heap : Heap α ε ρ} : (empty : Stream α).Sits good heap :=
  ⟨trivial, trivial⟩

/-- What sits on a heap sits on it later. -/
theorem Stream.Sits.later {before after : Heap α ε ρ} {stream : Stream α}
    (sits : stream.Sits good before) (rests : before.Rests after) : stream.Sits good after :=
  ⟨sits.1, sits.2.mono rests.size⟩

/-- A run ends, and if it has a result the heap rests and is tidy and the result is right. -/
def Run.EndsIn (good : α → Prop) (fine : ρ → Prop) (excuse : Fault) (run : Nat → Run α ε ρ γ)
    (heap : Heap α ε ρ) (limit : Nat) (right : γ → Heap α ε ρ → Prop) : Prop :=
  ∃ enough outcome, (∀ bound, enough ≤ bound → run bound heap = outcome) ∧
    heap.Opens limit (left outcome) ∧
    (∀ stop after, outcome = .error stop after → stop = .fault excuse) ∧
    ∀ result after, outcome = .ok result after →
      heap.Rests after ∧ after.Tidy good fine excuse ∧ right result after

/-- A run is given up for its bound or the excuse only, and if it has a result the heap rests and is
tidy and the result is right. -/
def Run.Safe (good : α → Prop) (fine : ρ → Prop) (excuse : Fault) (run : Run α ε ρ γ)
    (heap : Heap α ε ρ) (right : γ → Heap α ε ρ → Prop) : Prop :=
  (∀ stop after, run heap = .error stop after → stop = .unfinished ∨ stop = .fault excuse) ∧
    ∀ result after, run heap = .ok result after →
      heap.Rests after ∧ after.Tidy good fine excuse ∧ right result after

/-- Reporting events beforehand leaves a plan tame. -/
theorem Plan.Tame.reportAll {plan : Plan α ε ρ} (events : List ε)
    (tame : plan.Tame good fine excuse) : (Plan.reportAll events plan).Tame good fine excuse := by
  induction events with
  | nil => exact tame
  | cons event events rest => exact .report rest

namespace Run

variable {run : Nat → Run α ε ρ γ} {heap : Heap α ε ρ} {limit : Nat}
  {right : γ → Heap α ε ρ → Prop}

/-- What ends with something right ends. -/
theorem EndsIn.ends (ends : EndsIn good fine excuse run heap limit right) :
    Ends excuse run heap limit := by
  obtain ⟨enough, outcome, same, opens, stops, _⟩ := ends
  exact ⟨enough, outcome, same, opens, stops⟩

/-- A run that does not depend on the bound ends. -/
theorem EndsIn.leaf {single : Run α ε ρ γ} {result : γ} {after : Heap α ε ρ}
    (ran : single heap = .ok result after) (starts : after.starts = heap.starts)
    (rests : heap.Rests after) (tidy : after.Tidy good fine excuse) (is : right result after) :
    EndsIn good fine excuse (fun _ => single) heap limit right := by
  refine ⟨0, .ok result after, fun _ _ => ran, .of_eq starts, ?_, ?_⟩
  · exact fun _ _ impossible => nomatch impossible
  · rintro _ _ ⟨⟩
    exact ⟨rests, tidy, is⟩

/-- A result that is there is right. -/
theorem EndsIn.pure {result : γ} (tidy : heap.Tidy good fine excuse) (is : right result heap) :
    EndsIn good fine excuse (fun _ => (pure result : Run α ε ρ γ)) heap limit right :=
  .leaf rfl rfl (.refl heap .cell) tidy is

/-- Giving up for the excuse is an end. -/
theorem EndsIn.fault :
    EndsIn good fine excuse (fun _ => (fault excuse : Run α ε ρ γ)) heap limit right := by
  refine ⟨0, .error (.fault excuse) heap, fun _ _ => rfl, .of_eq rfl, ?_, ?_⟩
  · rintro _ _ ⟨⟩
    rfl
  · exact fun _ _ impossible => nomatch impossible

/-- One run after another. -/
theorem EndsIn.bind {next : Nat → γ → Run α ε ρ γ'} {right' : γ' → Heap α ε ρ → Prop}
    (first : EndsIn good fine excuse run heap limit right)
    (second : ∀ {result : γ} {after : Heap α ε ρ}, heap.Rests after →
      after.Tidy good fine excuse → right result after →
        EndsIn good fine excuse (fun bound => next bound result) after limit right') :
    EndsIn good fine excuse (fun bound => run bound >>= next bound) heap limit right' := by
  obtain ⟨low, outcome, same, opens, stops, results⟩ := first
  cases outcome with
  | error stop after =>
    refine ⟨low, .error stop after, fun bound le => ?_, opens, ?_, ?_⟩
    · show (run bound >>= next bound) heap = _
      rw [bind_apply, same bound le]
    · rintro _ _ ⟨⟩
      exact stops stop after rfl
    · exact fun _ _ impossible => nomatch impossible
  | ok result after =>
    obtain ⟨rests, tidy, is⟩ := results result after rfl
    obtain ⟨high, outcome, same', opens', stops', results'⟩ := second rests tidy is
    refine ⟨max low high, outcome, fun bound le => ?_, opens.trans opens', stops', ?_⟩
    · show (run bound >>= next bound) heap = _
      rw [bind_apply, same bound (by omega)]
      exact same' bound (by omega)
    · intro last final ended
      obtain ⟨rests', tidy', is'⟩ := results' last final ended
      exact ⟨rests.trans rests', tidy', is'⟩

/-- A run ends that starts less and is right in more. -/
theorem EndsIn.imp {more : Nat} {weaker : γ → Heap α ε ρ → Prop}
    (ends : EndsIn good fine excuse run heap limit right) (le : limit ≤ more)
    (imp : ∀ result after, right result after → weaker result after) :
    EndsIn good fine excuse run heap more weaker := by
  obtain ⟨enough, outcome, same, opens, stops, results⟩ := ends
  refine ⟨enough, outcome, same, opens.mono le, stops, fun result after ended => ?_⟩
  obtain ⟨rests, tidy, is⟩ := results result after ended
  exact ⟨rests, tidy, imp result after is⟩

/-- A run ends that goes as another one under the bound before. -/
theorem EndsIn.succ {run' : Nat → Run α ε ρ γ}
    (ends : EndsIn good fine excuse run heap limit right)
    (same : ∀ bound, run' (bound + 1) heap = run bound heap) :
    EndsIn good fine excuse run' heap limit right := by
  obtain ⟨enough, outcome, ended, rest⟩ := ends
  refine ⟨enough + 1, outcome, fun bound le => ?_, rest⟩
  obtain ⟨bound, rfl⟩ : ∃ less, bound = less + 1 := ⟨bound - 1, by omega⟩
  rw [same, ended bound (by omega)]

/-- Making a cell for tame work on what is there. -/
theorem EndsIn.defer {work : Work α ε ρ} (tidy : heap.Tidy good fine excuse)
    (tame : work.Tame good fine excuse) (within : work.Within heap.cells.size) :
    EndsIn good fine excuse (fun _ => defer work) heap limit
      fun cell after => cell < after.cells.size := by
  refine .leaf rfl rfl (Heap.rests_push _ fun impossible => nomatch impossible)
    (tidy.push tame within fun _ impossible => nomatch impossible) ?_
  exact Nat.lt_of_lt_of_eq (Nat.lt_succ_self _) (Heap.size_push heap ⟨work, .waiting⟩).symm

/-- Making a cell for a stream. -/
theorem EndsIn.known {stream : Stream α} (tidy : heap.Tidy good fine excuse)
    (sits : stream.Sits good heap) :
    EndsIn good fine excuse (fun _ => known stream) heap limit
      fun cell after => after.cells[cell]? = some ⟨.known stream, .done stream⟩ := by
  refine .leaf rfl rfl (Heap.rests_push _ fun impossible => nomatch impossible)
    (tidy.push (show Work.Tame good fine excuse (.known stream) from sits.1) sits.2 ?_) ?_
  · rintro _ ⟨⟩
    exact sits
  · exact (Heap.getElem?_push heap ⟨.known stream, .done stream⟩ heap.cells.size).trans
      (if_pos rfl)

end Run

open Run

section Machine

variable {routines : ρ → Plan α ε ρ} {heap : Heap α ε ρ} {limit : Nat}

/-- A merge ends if it need not force anything or that ends. -/
theorem Run.EndsIn.mergeWith {first : Stream α} {second : CellId}
    (tidy : heap.Tidy good fine excuse) (sits : first.Sits good heap)
    (there : second < heap.cells.size)
    (forced : first = .empty → EndsIn good fine excuse
      (fun bound => (handlers routines bound).force second) heap limit fun made after =>
        made.Sits good after) :
    EndsIn good fine excuse (fun bound => first.mergeWith (handlers routines bound) second) heap
      limit fun made after => made.Sits good after := by
  have deferred : ∀ {cell : CellId}, cell < heap.cells.size → ∀ (form : CellId → Stream α),
      (∀ {after : Heap α ε ρ} {rest : CellId}, rest < after.cells.size →
        (form rest).Sits good after) →
          EndsIn good fine excuse
            (fun _ => Run.defer (.merge second cell) >>= fun rest => Pure.pure (form rest)) heap
            limit fun made after => made.Sits good after := by
    intro cell within form formed
    have tame : (Work.merge second cell : Work α ε ρ).Tame good fine excuse := trivial
    exact (EndsIn.defer tidy tame ⟨there, within⟩).bind fun _ tidy rest => .pure tidy (formed rest)
  cases first with
  | empty => exact forced rfl
  | cons head tail => exact deferred sits.2 (.cons head) fun rest => ⟨sits.1, rest⟩
  | suspended cell => exact deferred sits.2 .suspended fun rest => ⟨trivial, rest⟩

/-- A flat map ends where its body does. -/
theorem Run.EndsIn.mapcatWith {body : α → Plan α ε ρ} {scope : List (Stream α)}
    {apply : Nat → α → Run α ε ρ (Stream α)} {source : Stream α}
    (tidy : heap.Tidy good fine excuse)
    (tame : ∀ value, good value → (body value).Tame good fine excuse)
    (sitsScope : ∀ stream ∈ scope, stream.Sits good heap) (sits : source.Sits good heap)
    (applied : ∀ value, good value → EndsIn good fine excuse (fun bound => apply bound value) heap
      limit fun made after => made.Sits good after) :
    EndsIn good fine excuse
      (fun bound => source.mapcatWith (handlers routines bound) body scope (apply bound)) heap limit
      fun made after => made.Sits good after := by
  have deferred : ∀ {after : Heap α ε ρ} {cell : CellId}, heap.Rests after →
      after.Tidy good fine excuse → cell < heap.cells.size →
        EndsIn good fine excuse (fun _ => Run.defer (.mapcat cell body scope)) after limit
          fun rest after => rest < after.cells.size := by
    intro after cell rests tidy within
    have kept : (Work.mapcat cell body scope).Tame good fine excuse :=
      ⟨tame, fun stream member => (sitsScope stream member).1⟩
    exact .defer tidy kept ⟨Nat.lt_of_lt_of_le within rests.size, fun stream member =>
      ((sitsScope stream member).later rests).2⟩
  cases source with
  | empty => exact .pure tidy Stream.sits_empty
  | suspended cell =>
    exact (deferred (.refl heap .cell) tidy sits.2).bind fun _ tidy rest =>
      .pure tidy ⟨trivial, rest⟩
  | cons head tail =>
    refine (applied head sits.1).bind fun {first after} rests tidy sitsFirst => ?_
    refine (deferred rests tidy sits.2).bind fun {rest final} rests' tidy there => ?_
    cases first with
    | empty => exact .pure tidy ⟨trivial, there⟩
    | cons first others =>
      exact .mergeWith tidy (sitsFirst.later rests') there fun impossible => nomatch impossible
    | suspended cell =>
      exact .mergeWith tidy (sitsFirst.later rests') there fun impossible => nomatch impossible

/-- Carrying out a tame plan ends and starts nothing. The cell that a merge may force is the one
just made for the second stream. -/
theorem Plan.Tame.endsIn {plan : Plan α ε ρ} (tame : plan.Tame good fine excuse)
    (tidy : heap.Tidy good fine excuse) {scope : List (Stream α)}
    (sitsScope : ∀ stream ∈ scope, stream.Sits good heap) :
    EndsIn good fine excuse (fun bound => plan.eval (handlers routines bound) scope) heap limit
      fun made after => made.Sits good after := by
  induction tame generalizing heap scope with
  | empty => exact .pure tidy Stream.sits_empty
  | unit is =>
    exact (EndsIn.known tidy Stream.sits_empty).bind fun _ tidy found =>
      .pure tidy ⟨is, Heap.lt_size_of_getElem? found⟩
  | merge _ _ first second =>
    refine (first tidy sitsScope).bind fun {left after} rests tidy sitsLeft => ?_
    refine (second tidy fun stream member => (sitsScope stream member).later rests).bind
      fun {right final} rests' tidy sitsRight => ?_
    refine (EndsIn.known tidy sitsRight).bind fun {other last} rests'' tidy found => ?_
    refine .mergeWith tidy ((sitsLeft.later rests').later rests'')
      (Heap.lt_size_of_getElem? found) fun _ => ?_
    have ready : EndsIn good fine excuse (fun _ => (Pure.pure right : Run α ε ρ _)) last limit
        fun made after => made.Sits good after :=
      .pure tidy (sitsRight.later rests'')
    exact ready.succ fun bound => forceCell_done _ found
  | mapcat _ tame source applied =>
    refine (source tidy sitsScope).bind fun rests tidy sits => ?_
    have sitsScope := fun stream member => (sitsScope stream member).later rests
    exact .mapcatWith tidy tame sitsScope sits fun value is => applied value is tidy sitsScope
  | share _ _ shared rest =>
    refine (shared tidy sitsScope).bind fun rests tidy sits => rest tidy fun stream member => ?_
    rcases List.mem_cons.mp member with rfl | member
    · exact sits
    · exact (sitsScope stream member).later rests
  | ref index =>
    refine .pure tidy ?_
    rw [List.getD_eq_getElem?_getD]
    cases found : scope[index]? with
    | none => exact Stream.sits_empty
    | some stream => exact sitsScope stream (List.mem_of_getElem? found)
  | @delay routine is =>
    have kept : (Work.plan (.call routine) scope : Work α ε ρ).Tame good fine excuse :=
      ⟨routine, rfl, is⟩
    exact (EndsIn.defer tidy kept fun stream member => (sitsScope stream member).2).bind
      fun _ tidy rest => .pure tidy ⟨trivial, rest⟩
  | @report event next _ rest =>
    have recorded : EndsIn good fine excuse (fun _ => Run.record (.reported event)) heap limit
        fun _ after => heap.Rests after :=
      .leaf rfl (Heap.starts_report heap event) (.withTrace heap .cell _) (tidy.withTrace _)
        (.withTrace heap .cell _)
    exact recorded.bind fun rests tidy _ => rest tidy fun stream member =>
      (sitsScope stream member).later rests
  | computed _ rest => exact rest tidy sitsScope
  | fail => exact .fault

/-- Forcing a cell ends where its work does. -/
theorem Run.EndsIn.forceCell {cell : CellId} {work : Work α ε ρ}
    (found : heap.cells[cell]? = some ⟨work, .waiting⟩)
    (worked : EndsIn good fine excuse (fun bound => work.run (handlers routines bound))
      (heap.start cell) cell fun made after => made.Sits good after) :
    EndsIn good fine excuse (fun bound => Relational.forceCell (handlers routines bound) cell) heap
      (cell + 1) fun made after => made.Sits good after := by
  have started : heap.Opens (cell + 1) (heap.start cell) := by
    refine ⟨[cell], heap.starts_start cell, fun other member => ?_⟩
    rw [List.mem_singleton.mp member]
    exact Nat.lt_succ_self cell
  obtain ⟨enough, outcome, same, opens, stops, results⟩ := worked
  have opens := started.trans (opens.mono (Nat.le_succ cell))
  cases outcome with
  | error stop after =>
    refine ⟨enough, .error stop after, fun bound le => ?_, opens, ?_, ?_⟩
    · exact (forceCell_waiting_eq_error found).mpr (same bound le)
    · rintro _ _ ⟨⟩
      exact stops stop after rfl
    · exact fun _ _ impossible => nomatch impossible
  | ok stream finished =>
    obtain ⟨rests, tidy, sits⟩ := results stream finished rfl
    refine ⟨enough, .ok stream (finished.mark cell (.done stream)), fun bound le => ?_, opens,
      fun _ _ impossible => (nomatch impossible), ?_⟩
    · exact (forceCell_waiting_eq_ok found).mpr ⟨finished, same bound le, rfl⟩
    · rintro _ _ ⟨⟩
      refine ⟨.finish found rests stream, tidy.mark ?_, sits.1, ?_⟩
      · rintro _ ⟨⟩
        exact sits
      · rw [Heap.size_mark]
        exact sits.2

/-- Doing tame work ends where forcing the cells that it names does, if fine routines have tame
plans. -/
theorem Run.EndsIn.work (calls : ∀ routine, fine routine → (routines routine).Tame good fine excuse)
    {work : Work α ε ρ} (tame : work.Tame good fine excuse) {cell : CellId}
    (within : work.Within cell) (tidy : heap.Tidy good fine excuse) (le : cell ≤ heap.cells.size)
    (forced : ∀ {other : CellId} {after : Heap α ε ρ}, other < cell → heap.Rests after →
      after.Tidy good fine excuse →
        EndsIn good fine excuse (fun bound => (handlers routines bound).force other) after limit
          fun made after => made.Sits good after) :
    EndsIn good fine excuse (fun bound => work.run (handlers routines bound)) heap limit
      fun made after => made.Sits good after := by
  cases work with
  | known stream =>
    have within : stream.Within cell := within
    exact .pure tidy ⟨tame, within.mono le⟩
  | plan content scope =>
    obtain ⟨routine, rfl, is⟩ := tame
    have made : EndsIn good fine excuse
        (fun bound => (routines routine).eval (handlers routines bound) []) heap limit
        fun made after => made.Sits good after :=
      (calls routine is).endsIn tidy fun _ member => nomatch member
    exact made.succ fun bound => rfl
  | merge first second =>
    refine (forced within.1 (.refl _ .cell) tidy).bind fun {stream after} rests tidy sits => ?_
    have there : second < after.cells.size :=
      Nat.lt_of_lt_of_le within.2 (Nat.le_trans le rests.size)
    exact .mergeWith tidy sits there fun _ => forced within.2 rests tidy
  | mapcat source body scope =>
    refine (forced within.1 (.refl _ .cell) tidy).bind fun {stream after} rests tidy sits => ?_
    have sitsScope : ∀ stream ∈ scope, stream.Sits good after := fun stream member =>
      ⟨tame.2 stream member, (within.2 stream member).mono (Nat.le_trans le rests.size)⟩
    exact .mapcatWith tidy tame.1 sitsScope sits fun value is =>
      (tame.1 value is).endsIn tidy sitsScope
  | pull source position => exact tame.elim

/-- Forcing a cell ends if everything under way is newer, where fine routines have tame plans. It
starts nothing but the cell and older ones. What its work names is older than the cell, and so than
everything that is under way. -/
theorem force_endsIn (calls : ∀ routine, fine routine → (routines routine).Tame good fine excuse)
    {cell : CellId} (tidy : heap.Tidy good fine excuse) (there : cell < heap.cells.size)
    (newer : ∀ other, heap.Running other → cell < other) :
    EndsIn good fine excuse (fun bound => (handlers routines bound).force cell) heap (cell + 1)
      fun made after => made.Sits good after := by
  induction cell using Nat.strong_induction_on generalizing heap with
  | _ cell older =>
    have found := Array.getElem?_eq_getElem there
    rcases cellIs : heap.cells[cell] with ⟨work, status⟩
    rw [cellIs] at found
    cases status with
    | done stream =>
      have ready : EndsIn good fine excuse (fun _ => (Pure.pure stream : Run α ε ρ _)) heap
          (cell + 1) fun made after => made.Sits good after :=
        .pure tidy ⟨tidy.front found, tidy.content found⟩
      exact ready.succ fun bound => forceCell_done _ found
    | running => exact absurd (newer cell ⟨work, found⟩) (Nat.lt_irrefl cell)
    | waiting =>
      have size : (heap.start cell).cells.size = heap.cells.size := heap.size_start cell
      have marked : (heap.mark cell .running).Tidy good fine excuse :=
        tidy.mark fun _ impossible => nomatch impossible
      have worked : EndsIn good fine excuse (fun bound => work.run (handlers routines bound))
          (heap.start cell) cell fun made after => made.Sits good after := by
        refine .work calls (tidy.tame found) (tidy.older found) (marked.withTrace _)
          (size ▸ Nat.le_of_lt there) fun {other after} less rests tidy => ?_
        have there' : other < after.cells.size :=
          Nat.lt_of_lt_of_le (Nat.lt_trans less there) (size ▸ rests.size)
        refine (older other less tidy there' fun number running => ?_).imp less fun _ _ is => is
        by_cases same : cell = number
        · exact same ▸ less
        · exact Nat.lt_trans less
            (newer number ((Heap.running_start same).mp (rests.running.mp running)))
      exact (EndsIn.forceCell found worked).succ fun bound => rfl

/-- Where nothing is under way, some bound is large enough for seeing so many steps of a stream,
unless forcing one of its cells is given up for the excuse. -/
theorem exists_observe (calls : ∀ routine, fine routine → (routines routine).Tame good fine excuse)
    (tidy : heap.Tidy good fine excuse) (idle : ∀ cell, ¬ heap.Running cell) {stream : Stream α}
    (sits : stream.Sits good heap) (count : Nat) :
    ∃ bound, ∀ stop after,
      stream.observe (handlers routines bound) count heap = .error stop after →
        stop = .fault excuse := by
  induction count generalizing heap stream with
  | zero =>
    refine ⟨0, fun stop after stopped => ?_⟩
    cases stream <;> exact nomatch stopped
  | succ count fewer =>
    have behind : ∀ {cell : CellId} (first : Step α), cell < heap.cells.size →
        ∃ bound, ∀ stop after,
          ((handlers routines bound).force cell >>= fun stream =>
            stream.observe (handlers routines bound) count >>= fun steps =>
              pure (first :: steps) : Run α ε ρ (Steps α)) heap = .error stop after →
            stop = .fault excuse := by
      intro cell first there
      obtain ⟨enough, outcome, same, _, stops, results⟩ :=
        force_endsIn calls tidy there fun other running => absurd running (idle other)
      have ends : ∀ bound, enough ≤ bound →
        (handlers routines bound).force cell heap = outcome := same
      cases outcome with
      | error stop after =>
        refine ⟨enough, fun stop' after' stopped => ?_⟩
        rw [Run.bind_apply, ends enough (Nat.le_refl enough)] at stopped
        cases stopped
        exact stops stop after rfl
      | ok made between =>
        obtain ⟨rests, tidy, sits⟩ := results made between rfl
        obtain ⟨more, stops⟩ :=
          fewer tidy (fun other running => idle other (rests.running.mp running)) sits
        refine ⟨max enough more, fun stop after stopped => ?_⟩
        rw [Run.bind_apply, ends _ (Nat.le_max_left enough more)] at stopped
        rcases Run.bind_eq_error.mp stopped with stopped | ⟨_, _, _, impossible⟩
        · rcases (Handlers.Steady.observe count made).refines
            (handlers_mono routines (Nat.le_max_right enough more)) between with
              ⟨last, unfinished⟩ | seen
          · exact nomatch stops _ last unfinished
          · exact stops stop after (seen.trans stopped)
        · exact nomatch impossible
    cases stream with
    | empty =>
      refine ⟨0, fun stop after stopped => ?_⟩
      cases count <;> exact nomatch stopped
    | cons head tail =>
      cases count with
      | zero => exact ⟨0, fun stop after stopped => nomatch stopped⟩
      | succ count => exact behind (.value head) sits.2
    | suspended cell =>
      cases count with
      | zero => exact ⟨0, fun stop after stopped => nomatch stopped⟩
      | succ count => exact behind .tick sits.2

/-- Under every bound a run that ends is unfinished or comes to its end. -/
theorem Run.EndsIn.safe {run : Handlers α ε ρ → Run α ε ρ γ} {right : γ → Heap α ε ρ → Prop}
    (ends : EndsIn good fine excuse (fun bound => run (handlers routines bound)) heap limit right)
    (steady : Handlers.Steady run) (bound : Nat) :
    Safe good fine excuse (run (handlers routines bound)) heap right := by
  obtain ⟨enough, outcome, same, _, stops, results⟩ := ends
  have large : run (handlers routines (max bound enough)) heap = outcome :=
    same _ (Nat.le_max_right bound enough)
  have more := steady.refines (handlers_mono routines (Nat.le_max_left bound enough)) heap
  rw [large] at more
  constructor
  · intro stop after stopped
    rcases more with ⟨_, unfinished⟩ | ended
    · cases stopped.symm.trans unfinished
      exact .inl rfl
    · exact .inr (stops stop after (ended.symm.trans stopped))
  · intro result after ran
    rcases more with ⟨_, unfinished⟩ | ended
    · exact nomatch ran.symm.trans unfinished
    · exact results result after (ended.symm.trans ran)

end Machine

end Relational
