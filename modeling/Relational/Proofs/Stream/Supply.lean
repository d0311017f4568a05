import Relational.Proofs.Stream.Consumption
import Relational.Proofs.Stream.Thrift
import Relational.Stream.Consumers

/-!
# Sources are asked as far as consumers go

The stream of a source is a chain of cells, one behind the other, of which only the last one made is
waiting. A consumer that has been pulled some times stands right behind the item that it was given
last, so it forces the last cell only if it goes further than all others, and then the source is
asked for one more item. Every other cell that it comes to holds what the source has given.
-/
namespace Relational

variable {α ε ρ : Type}

section Sources

variable {source : Source α ε} {position : Nat}

/-- What is given at a position by a source that may have come to its end before. -/
def Source.given (source : Source α ε) : Nat → Option α
  | 0 => source.item 0
  | position + 1 => if (given source position).isSome then source.item (position + 1) else none

/-- The source does not come to its end before a position. -/
def Source.Reaches (source : Source α ε) (position : Nat) : Prop :=
  ∀ earlier < position, (source.given earlier).isSome

namespace Source

/-- A source comes to its first position. -/
theorem Reaches.zero : source.Reaches 0 := fun _ impossible => absurd impossible (Nat.not_lt_zero _)

/-- What comes to a position comes to those before it. -/
theorem Reaches.mono {earlier : Nat} (reaches : source.Reaches position)
    (le : earlier ≤ position) : source.Reaches earlier :=
  fun first less => reaches first (Nat.lt_of_lt_of_le less le)

/-- Only what comes to a position gives something there. -/
theorem reaches_of_given (some : (source.given position).isSome) : source.Reaches position := by
  induction position with
  | zero => exact .zero
  | succ position reaches =>
    have before : (source.given position).isSome := by
      by_contra none
      rw [given, if_neg none] at some
      exact Bool.noConfusion some
    intro earlier less
    rcases Nat.lt_succ_iff_lt_or_eq.mp less with less | rfl
    · exact reaches before earlier less
    · exact before

/-- What comes to a position goes on where something is given there. -/
theorem reaches_succ_iff : source.Reaches (position + 1) ↔ (source.given position).isSome := by
  refine ⟨fun reaches => reaches position (Nat.lt_succ_self _), fun some => ?_⟩
  intro earlier less
  rcases Nat.lt_succ_iff_lt_or_eq.mp less with less | rfl
  · exact reaches_of_given some earlier less
  · exact some

/-- A source gives its items where it comes to. -/
theorem Reaches.given (reaches : source.Reaches position) :
    source.given position = source.item position := by
  cases position with
  | zero => rfl
  | succ position => rw [Source.given, if_pos (reaches position (Nat.lt_succ_self _))]

/-- A source that comes to its end gives its items before it and nothing from there on. -/
theorem Ends.given {length : Nat} (ends : source.Ends length) (position : Nat) :
    source.given position = if position < length then source.item position else none := by
  induction position with
  | zero =>
    split
    · rfl
    · next last =>
      rw [Nat.eq_zero_of_not_pos last] at ends
      exact ends.finish
  | succ position given =>
    rw [Source.given, given]
    rcases Nat.lt_trichotomy (position + 1) length with before | rfl | behind
    · have less : position < length := Nat.lt_of_succ_lt before
      rw [if_pos less, if_pos (ends.items position less), if_pos before]
    · rw [if_neg (Nat.lt_irrefl _), ends.finish, ite_self]
    · rw [if_neg (Nat.not_lt.mpr (Nat.le_of_lt_succ behind)), if_neg (Nat.lt_asymm behind)]
      rfl

/-- A source that comes to its end comes so far and no further. -/
theorem Ends.reaches_iff {length : Nat} (ends : source.Ends length) :
    source.Reaches position ↔ position ≤ length := by
  constructor
  · intro reaches
    by_contra more
    have given := reaches length (Nat.lt_of_not_le more)
    rw [ends.given, if_neg (Nat.lt_irrefl _)] at given
    exact Bool.noConfusion given
  · intro le earlier less
    have within := Nat.lt_of_lt_of_le less le
    rw [ends.given, if_pos within]
    exact ends.items earlier within

/-- A source without end gives all its items. -/
theorem Endless.given (endless : source.Endless) (position : Nat) :
    source.given position = source.item position := by
  induction position with
  | zero => rfl
  | succ position given => rw [Source.given, given, if_pos (endless position)]

/-- A source without end comes to every position. -/
theorem Endless.reaches (endless : source.Endless) (position : Nat) : source.Reaches position := by
  intro earlier _
  rw [endless.given]
  exact endless earlier

end Source

end Sources

/-- What is reported stands behind what was reported before, and the cells stay as they are. -/
theorem Run.report_eq_ok (events : List ε) (heap : Heap α ε ρ) :
    ∃ trace, Run.report events heap = .ok () (heap.withTrace trace) ∧
      (heap.withTrace trace).events = heap.events ++ events := by
  induction events generalizing heap with
  | nil => exact ⟨heap.trace, rfl, (List.append_nil _).symm⟩
  | cons event events reported =>
    obtain ⟨trace, ran, same⟩ := reported (heap.withTrace (heap.trace.push (.reported event)))
    refine ⟨trace, ran, ?_⟩
    rw [Heap.events_report, List.append_assoc] at same
    exact same

/-- Storing what work came to reports nothing. -/
theorem Heap.events_mark (heap : Heap α ε ρ) (cell : CellId) (status : Status α) :
    (heap.mark cell status).events = heap.events :=
  rfl

section Chains

variable (source : Source α ε) (base : CellId)

/-- The stream from a position of a source on, whose cells are numbered one after another. -/
def Source.stream (position : Nat) : Stream α :=
  match source.given position with
  | none => .empty
  | some item => .cons item (base + position)

/-- The item at a position and the stream after it, if there is one. -/
def Source.seen (position : Nat) : Option (α × Stream α) :=
  (source.given position).map fun item => (item, .suspended (base + position))

/-- What an iterator stands at that has been pulled some times. -/
def Source.pending : Nat → Stream α
  | 0 => source.stream base 0
  | position + 1 =>
    if (source.given position).isSome then .suspended (base + position) else .empty

/-- The cells of a source that has been asked for its items up to a last one. -/
structure Heap.Supplied (before : List ε) (last : Nat) (heap : Heap α ε ρ) : Prop where
  /-- The source has been asked for every item once, in their order. -/
  events : heap.events = before ++ (List.range (last + 1)).flatMap source.report
  /-- It has not been asked behind its end. -/
  reaches : source.Reaches last
  /-- The cells before the last one hold the items behind them. -/
  known : ∀ position < last, ∃ work,
    heap.cells[base + position]? = some ⟨work, .done (source.stream base (position + 1))⟩
  /-- If the last item is none, nothing waits to be asked for. Otherwise the next one does. -/
  next : (source.given last).isSome →
    heap.cells[base + last]? = some ⟨.pull source (last + 1), .waiting⟩ ∧
      heap.cells.size = base + last + 1

variable {source base} {before : List ε} {last position : Nat} {heap : Heap α ε ρ}

/-- What is left behind an item is what an iterator stands at that has been pulled once more. -/
theorem Source.leftover_seen (position : Nat) :
    Session.leftover .empty (source.seen base position) = source.pending base (position + 1) := by
  rw [Source.pending, Source.seen]
  cases source.given position <;> rfl

/-- What is seen at a position is the item there. -/
theorem Source.map_fst_seen (position : Nat) :
    (source.seen base position).map Prod.fst = source.given position := by
  rw [Source.seen]
  cases source.given position <;> rfl

/-- The next value of the stream from a position on is the item there. -/
theorem Source.uncons?_stream (handlers : Handlers α ε ρ) (bound position : Nat)
    (heap : Heap α ε ρ) : (source.stream base position).uncons? handlers bound heap =
      .ok (source.seen base position) heap := by
  rw [Source.stream, Source.seen]
  cases source.given position <;> cases bound <;> rfl

namespace Heap

variable (source base heap) in
/-- A source that is asked for the item at a position gives the stream from there on. -/
theorem pull_eq_ok (reaches : source.Reaches position)
    (size : (source.given position).isSome → heap.cells.size = base + position) :
    ∃ after, source.pull position heap = .ok (source.stream base position) after ∧
      after.events = heap.events ++ source.report position ∧
      (∀ cell < base + position, after.cells[cell]? = heap.cells[cell]?) ∧
      ((source.given position).isSome →
        after.cells[base + position]? = some ⟨.pull source (position + 1), .waiting⟩ ∧
          after.cells.size = base + position + 1) := by
  obtain ⟨trace, reported, events⟩ := Run.report_eq_ok (source.report position) heap
  unfold Source.pull Source.stream
  rw [Run.bind_apply, reported, ← reaches.given]
  cases given : source.given position with
  | none => exact ⟨_, rfl, events, fun _ _ => rfl, fun impossible => nomatch impossible⟩
  | some item =>
    rw [given] at size
    have size : heap.cells.size = base + position := size rfl
    refine ⟨(heap.withTrace trace).push ⟨.pull source (position + 1), .waiting⟩, ?_, events, ?_,
      fun _ => ⟨?_, ?_⟩⟩
    · rw [← size]
      rfl
    · intro cell less
      rw [getElem?_push, if_neg (by rw [← size] at less; exact Nat.ne_of_lt less)]
      rfl
    · rw [getElem?_push, ← size]
      exact if_pos rfl
    · rw [size_push, ← size]
      rfl

/-- The first item is asked for when the stream is made. -/
theorem supplied_pull (heap : Heap α ε ρ) (source : Source α ε) :
    ∃ after, source.pull 0 heap = .ok (source.stream heap.cells.size 0) after ∧
      after.Supplied source heap.cells.size heap.events 0 := by
  obtain ⟨after, ran, events, _, next⟩ :=
    pull_eq_ok source heap.cells.size heap .zero fun _ => rfl
  refine ⟨after, ran, ?_, .zero, fun _ impossible => absurd impossible (Nat.not_lt_zero _), next⟩
  rw [events]
  simp only [Nat.zero_add, List.range_one, List.flatMap_cons, List.flatMap_nil, List.append_nil]

/-- Forcing a cell gives the item behind it, and the source is asked for it if it is the first time
that somebody comes there. -/
theorem Supplied.force (supplied : heap.Supplied source base before last)
    (some : (source.given position).isSome) (le : position ≤ last) (handlers : Handlers α ε ρ) :
    ∃ after,
      forceCell handlers (base + position) heap = .ok (source.stream base (position + 1)) after ∧
        after.Supplied source base before (max last (position + 1)) := by
  rcases Nat.lt_or_eq_of_le le with less | rfl
  · obtain ⟨work, found⟩ := supplied.known position less
    rw [Nat.max_eq_left less]
    exact ⟨heap, forceCell_done handlers found, supplied⟩
  · obtain ⟨waiting, size⟩ := supplied.next some
    have reaches : source.Reaches (position + 1) := Source.reaches_succ_iff.mpr some
    obtain ⟨after, ran, events, kept, next⟩ :=
      pull_eq_ok source base (heap.start (base + position)) reaches fun _ => by
        rw [size_start, size]
        rfl
    have asked : forceCell handlers (base + position) heap = _ :=
      (forceCell_waiting_eq_ok waiting).mpr ⟨after, ran, rfl⟩
    rw [Nat.max_eq_right (Nat.le_succ _)]
    refine ⟨_, asked, ?_, reaches, ?_, ?_⟩
    · rw [events_mark, events, events_start, supplied.events, List.append_assoc,
        List.range_succ (n := position + 1), List.flatMap_append, List.flatMap_singleton]
    · intro earlier less
      have there : base + earlier < base + (position + 1) := Nat.add_lt_add_left less base
      have started : (heap.start (base + position)).cells[base + earlier]? =
          (heap.mark (base + position) .running).cells[base + earlier]? := rfl
      rw [getElem?_mark, kept _ there, started, getElem?_mark]
      rcases Nat.lt_succ_iff_lt_or_eq.mp less with less | rfl
      · obtain ⟨work, found⟩ := supplied.known earlier less
        have apart : base + position ≠ base + earlier := (Nat.add_lt_add_left less base).ne'
        rw [if_neg apart, if_neg apart, found]
        exact ⟨work, rfl⟩
      · rw [if_pos rfl, if_pos rfl, waiting]
        exact ⟨_, rfl⟩
    · intro some
      obtain ⟨waiting, size⟩ := next some
      have apart : base + position ≠ base + (position + 1) := Nat.ne_of_lt (Nat.lt_succ_self _)
      rw [getElem?_mark, if_neg apart, size_mark]
      exact ⟨waiting, size⟩

end Heap

/-- An item is the last one that is asked for where consumers have been pulled so often. -/
def Source.Last (source : Source α ε) (taken : Nat → Nat) (last : Nat) : Prop :=
  ∀ position, position ≤ last ↔
    source.Reaches position ∧ (position = 0 ∨ ∃ iterator, position < taken iterator)

/-- Where an iterator is pulled once more, one more item may be the last one. -/
theorem Source.Last.update {taken : Nat → Nat} {last' number : Nat} (is : source.Last taken last)
    (more : ∀ position, position ≤ last' ↔
      position ≤ last ∨ source.Reaches position ∧ position ≤ taken number) :
    source.Last (Function.update taken number (taken number + 1)) last' := by
  intro position
  rw [more, is]
  constructor
  · rintro (⟨reaches, first | ⟨iterator, less⟩⟩ | ⟨reaches, le⟩)
    · exact ⟨reaches, .inl first⟩
    · refine ⟨reaches, .inr ⟨iterator, ?_⟩⟩
      by_cases same : iterator = number
      · rw [same, Function.update_self]
        rw [same] at less
        exact Nat.lt_succ_of_lt less
      · rw [Function.update_of_ne same]
        exact less
    · refine ⟨reaches, .inr ⟨number, ?_⟩⟩
      rw [Function.update_self]
      exact Nat.lt_succ_of_le le
  · rintro ⟨reaches, first | ⟨iterator, less⟩⟩
    · exact .inl ⟨reaches, .inl first⟩
    · by_cases same : iterator = number
      · rw [same, Function.update_self] at less
        exact .inr ⟨reaches, Nat.le_of_lt_succ less⟩
      · rw [Function.update_of_ne same] at less
        exact .inl ⟨reaches, .inr ⟨iterator, less⟩⟩

/-- Looking for the next value where an iterator stands gives the item there. The source is asked
for it if nobody has come so far. -/
theorem Heap.Supplied.uncons? (routines : ρ → Plan α ε ρ) (count : Nat)
    (supplied : heap.Supplied source base before last)
    (near : ∀ position < count, source.Reaches position → position ≤ last) (bound : Nat) :
    ∃ after last', (source.pending base count).uncons? (handlers routines (bound + 1)) (bound + 1)
        heap = .ok (source.seen base count) after ∧
      after.Supplied source base before last' ∧
      ∀ position, position ≤ last' ↔
        position ≤ last ∨ source.Reaches position ∧ position ≤ count := by
  cases count with
  | zero =>
    refine ⟨heap, last, source.uncons?_stream _ _ 0 heap, supplied, fun position => ?_⟩
    constructor
    · exact .inl
    · rintro (le | ⟨_, le⟩)
      · exact le
      · exact Nat.le_trans le (Nat.zero_le _)
  | succ count =>
    rw [Source.pending]
    by_cases some : (source.given count).isSome
    · have le : count ≤ last := near count (Nat.lt_succ_self _) (Source.reaches_of_given some)
      obtain ⟨after, forced, supplied'⟩ := supplied.force some le (handlers routines bound)
      have forced : (handlers routines (bound + 1)).force (base + count) heap = _ := forced
      rw [if_pos some]
      refine ⟨after, max last (count + 1), ?_, supplied', fun position => ?_⟩
      · show ((handlers routines (bound + 1)).force (base + count) >>= fun stream =>
          stream.uncons? (handlers routines (bound + 1)) bound) heap = _
        rw [Run.bind_apply, forced]
        exact source.uncons?_stream _ _ _ after
      · have reaches : source.Reaches (count + 1) := Source.reaches_succ_iff.mpr some
        rw [le_max_iff]
        exact or_congr_right ⟨fun le => ⟨reaches.mono le, le⟩, And.right⟩
    · rw [if_neg some, Source.seen, Source.given, if_neg some]
      refine ⟨heap, last, rfl, supplied, fun position => ?_⟩
      constructor
      · exact .inl
      · rintro (le | ⟨reaches, le⟩)
        · exact le
        · refine near position (Nat.lt_of_le_of_ne le fun same => some ?_) reaches
          rw [same] at reaches
          exact Source.reaches_succ_iff.mp reaches

end Chains

namespace Session

variable {routines : ρ → Plan α ε ρ} {source : Source α ε} {base : CellId} {before : List ε}
  {first streams iterators : Nat} {clones : List Nat} {taken : Nat → Nat} {session : Session α ε ρ}

section Serving

variable (source base before first)

/-- A session whose clones are those of the stream of a source, where its iterators have been pulled
so often. -/
structure Serves (clones : List Nat) (streams iterators : Nat) (taken : Nat → Nat)
    (session : Session α ε ρ) : Prop where
  /-- The source has been asked as far as the iterators have come. -/
  supplied : ∃ last, session.heap.Supplied source base before last ∧ source.Last taken last
  /-- There are so many streams. -/
  placed : session.streams.size = streams
  /-- There are so many iterators. -/
  opened : session.iterators.size = iterators
  /-- The clones are there. -/
  clones : ∀ number ∈ clones,
    number < streams ∧ session.stream number = source.stream base 0
  /-- The iterators stand behind the items that they were given. -/
  pending : ∀ number, first ≤ number → number < iterators →
    session.iterator number = ⟨source.pending base (taken number)⟩
  /-- Iterators that are still to be made have not been pulled. -/
  fresh : ∀ number, iterators ≤ number → taken number = 0

end Serving

section Steps

variable (routines) {number : Nat}
  (serves : session.Serves source base before first clones streams iterators taken)

include serves

/-- A clone is made. -/
theorem Serves.clone (is : number ∈ clones) (bound : Nat) :
    (session.perform routines bound (.make (.ref number))).2.Serves source base before first
      (streams :: clones) (streams + 1) iterators taken := by
  obtain ⟨there, same⟩ := serves.clones number is
  have made : (session.perform routines bound (.make (.ref number))).2 =
      { session with streams := session.streams.push (source.stream base 0) } := by
    rw [← same, ← getD_streams]
    rfl
  rw [made]
  refine ⟨serves.supplied, ?_, serves.opened, ?_, serves.pending, serves.fresh⟩
  · rw [Array.size_push, serves.placed]
  · intro other member
    simp only [stream, Array.getD_eq_getD_getElem?, Array.getElem?_push, serves.placed]
    rcases List.mem_cons.mp member with rfl | member
    · exact ⟨Nat.lt_succ_self _, by rw [if_pos rfl, Option.getD_some]⟩
    · obtain ⟨less, same⟩ := serves.clones other member
      rw [if_neg (Nat.ne_of_lt less), ← Array.getD_eq_getD_getElem?]
      exact ⟨Nat.lt_succ_of_lt less, same⟩

/-- A stream is dropped. -/
theorem Serves.drop (number bound : Nat) :
    (session.perform routines bound (.drop number)).2.Serves source base before first
      (clones.filter (· ≠ number)) streams iterators taken := by
  refine ⟨serves.supplied, Array.size_setIfInBounds.trans serves.placed, serves.opened, ?_,
    serves.pending, serves.fresh⟩
  intro other member
  obtain ⟨member, apart⟩ := List.mem_filter.mp member
  obtain ⟨less, same⟩ := serves.clones other member
  have apart : number ≠ other := (of_decide_eq_true apart).symm
  refine ⟨less, ?_⟩
  rw [← same]
  simp only [stream, Array.getD_eq_getD_getElem?, perform, performWith,
    Array.getElem?_setIfInBounds_ne apart]

/-- An iterator is made at the front of a clone. -/
theorem Serves.iterate (is : number ∈ clones) (bound : Nat) :
    (session.perform routines bound (.iterate number)).2.Serves source base before first clones
      streams (iterators + 1) taken := by
  obtain ⟨there, same⟩ := serves.clones number is
  have made : (session.perform routines bound (.iterate number)).2 =
      { session with iterators := session.iterators.push ⟨source.stream base 0⟩ } := by
    rw [← same]
    rfl
  rw [made]
  refine ⟨serves.supplied, serves.placed, ?_, serves.clones, ?_,
    fun other le => serves.fresh other (Nat.le_of_succ_le le)⟩
  · rw [Array.size_push, serves.opened]
  · intro other own less
    simp only [iterator, Array.getD_eq_getD_getElem?, Array.getElem?_push, serves.opened]
    rcases Nat.lt_succ_iff_lt_or_eq.mp less with less | rfl
    · rw [if_neg (Nat.ne_of_lt less), ← Array.getD_eq_getD_getElem?]
      exact serves.pending other own less
    · rw [if_pos rfl, Option.getD_some, serves.fresh other (Nat.le_refl _), Source.pending]

/-- A pull gives the next item. -/
theorem Serves.pull (own : first ≤ number) (there : number < iterators) (bound : Nat) :
    ∃ left after, session.perform routines (bound + 1) (.pull number) =
        (.pulled (source.given (taken number)) left, after) ∧
      after.Serves source base before first clones streams iterators
        (Function.update taken number (taken number + 1)) := by
  obtain ⟨last, supplied, is⟩ := serves.supplied
  obtain ⟨heap, last', found, supplied', more⟩ :=
    supplied.uncons? routines (taken number)
      (fun position less reaches => (is position).mpr ⟨reaches, .inr ⟨number, less⟩⟩) bound
  have standing : (session.iterator number).pending = source.pending base (taken number) :=
    congrArg Stream.Iterator.pending (serves.pending number own there)
  rw [← standing] at found
  rw [perform_pull found, pulled, Source.leftover_seen, Source.map_fst_seen]
  let left : Stream.Iterator α := ⟨source.pending base (taken number + 1)⟩
  refine ⟨left, ⟨session.streams, session.iterators.setIfInBounds number left, heap⟩, rfl,
    ⟨last', supplied', is.update more⟩, serves.placed,
    Array.size_setIfInBounds.trans serves.opened, serves.clones, ?_, ?_⟩
  · intro other own' less
    rw [iterator, Array.getD_eq_getD_getElem?]
    by_cases same : other = number
    · rw [same, Array.getElem?_setIfInBounds_self_of_lt (serves.opened ▸ there), Option.getD_some,
        Function.update_self]
    · rw [Array.getElem?_setIfInBounds_ne (Ne.symm same), ← Array.getD_eq_getD_getElem?,
        Function.update_of_ne same]
      exact serves.pending other own' less
  · intro other le
    rw [Function.update_of_ne (Nat.ne_of_gt (Nat.lt_of_lt_of_le there le))]
    exact serves.fresh other le

end Steps

/-- An iterator draws what its own pull comes to. -/
theorem drawn_pulled (iterator number : Nat) (value : Option α) (left : Stream.Iterator α) :
    drawn iterator [(.pull number : Action α ε ρ)] [.pulled value left] =
      if number = iterator then [value] else [] := by
  by_cases same : number = iterator
  · simp only [drawn, List.zip_cons_cons, List.zip_nil_right, List.filterMap_cons,
      List.filterMap_nil, if_pos same]
  · simp only [drawn, List.zip_cons_cons, List.zip_nil_right, List.filterMap_cons,
      List.filterMap_nil, if_neg same]

/-- A pull adds to what its iterator is pulled and to nothing else. -/
theorem pulls_pull (iterator number : Nat) (actions : List (Action α ε ρ)) :
    pulls iterator (.pull number :: actions) =
      (if number = iterator then 1 else 0) + pulls iterator actions := by
  rw [pulls, List.countP_cons, Nat.add_comm, pulls]
  simp only [beq_iff_eq]

/-- Whatever is done with the clones, every iterator is given the items in their order, and the
source is asked as far as the iterators come. -/
theorem Serves.performAll (routines : ρ → Plan α ε ρ)
    (serves : session.Serves source base before first clones streams iterators taken)
    {actions : List (Action α ε ρ)}
    (shares : Shares first clones streams iterators actions) (bound : Nat) :
    let late := performAll routines (bound + 1) actions session
    Calm late.1 ∧
      (∀ iterator, drawn iterator actions late.1 =
        (List.range' (taken iterator) (pulls iterator actions)).map source.given) ∧
      ∃ last, late.2.heap.Supplied source base before last ∧
        source.Last (fun iterator => taken iterator + pulls iterator actions) last := by
  induction shares generalizing session taken with
  | done =>
    exact ⟨fun _ member => (nomatch member), fun _ => rfl, serves.supplied⟩
  | clone is _ later =>
    obtain ⟨calm, drew, last⟩ := later (serves.clone routines is (bound + 1))
    exact ⟨calm_cons.mpr ⟨rfl, calm⟩, drew, last⟩
  | drop number _ later =>
    obtain ⟨calm, drew, last⟩ := later (serves.drop routines number (bound + 1))
    exact ⟨calm_cons.mpr ⟨rfl, calm⟩, drew, last⟩
  | iterate is _ later =>
    obtain ⟨calm, drew, last⟩ := later (serves.iterate routines is (bound + 1))
    exact ⟨calm_cons.mpr ⟨rfl, calm⟩, drew, last⟩
  | @pull _ _ _ number actions own there _ later =>
    obtain ⟨left, after, pulled, serves'⟩ := serves.pull routines own there bound
    obtain ⟨calm, drew, last, supplied, is⟩ := later serves'
    have added : ∀ iterator, Function.update taken number (taken number + 1) iterator +
        pulls iterator actions = taken iterator + pulls iterator (.pull number :: actions) := by
      intro iterator
      rw [pulls_pull]
      by_cases same : iterator = number
      · rw [same, Function.update_self, if_pos rfl, Nat.add_assoc]
      · rw [Function.update_of_ne same, if_neg (Ne.symm same), Nat.zero_add]
    intro late
    have performed : late = (.pulled (source.given (taken number)) left ::
        (Session.performAll routines (bound + 1) actions after).1,
          (Session.performAll routines (bound + 1) actions after).2) := by
      show Session.performAll routines (bound + 1) (.pull number :: actions) session = _
      rw [performAll_cons, pulled]
    rw [performed]
    refine ⟨calm_cons.mpr ⟨rfl, calm⟩, fun iterator => ?_, last, supplied, ?_⟩
    · rw [drawn_cons, drawn_pulled, drew, pulls_pull]
      by_cases same : number = iterator
      · rw [if_pos same, if_pos same, same, Function.update_self, Nat.add_comm 1, List.range'_succ,
          List.map_cons]
        rfl
      · rw [if_neg same, if_neg same, Function.update_of_ne (Ne.symm same), Nat.zero_add]
        rfl
    · simpa only [added] using is

/-- The session in which the stream of a source has been made serves its items. -/
theorem serves_made (routines : ρ → Plan α ε ρ) (source : Source α ε) (bound : Nat)
    (session : Session α ε ρ) :
    let made := session.perform routines bound (.make (.lazy source))
    made.1.isStopped = false ∧
      made.2.Serves source session.heap.cells.size session.heap.events session.iterators.size
        [session.streams.size] (session.streams.size + 1) session.iterators.size fun _ => 0 := by
  obtain ⟨after, pulled, supplied⟩ := session.heap.supplied_pull source
  have performed : session.perform routines bound (.make (.lazy source)) =
      session.keep (source.pull 0) := rfl
  intro made
  have made : made = _ := performed
  rw [keep, pulled] at made
  rw [made]
  refine ⟨rfl, ⟨0, supplied, fun position => ?_⟩, Array.size_push _, rfl, ?_, ?_, fun _ _ => rfl⟩
  · constructor
    · intro le
      rw [Nat.le_zero.mp le]
      exact ⟨.zero, .inl rfl⟩
    · rintro ⟨_, same | ⟨_, impossible⟩⟩
      · exact Nat.le_of_eq same
      · exact absurd impossible (Nat.not_lt_zero _)
  · intro number member
    rw [List.mem_singleton.mp member, stream, Array.getD_eq_getD_getElem?,
      Array.getElem?_push_size]
    exact ⟨Nat.lt_succ_self _, rfl⟩
  · intro number own there
    exact absurd there (Nat.not_lt.mpr own)

/-- The last item that is asked for is the one that the furthest iterator has come to, or the
first. -/
theorem last_iff {actions : List (Action α ε ρ)} {furthest last : Nat}
    (is : source.Last (fun iterator => 0 + pulls iterator actions) last)
    (most : IsGreatest (Set.range fun iterator => pulls iterator actions) furthest)
    (position : Nat) :
    position ≤ last ↔ source.Reaches position ∧ position < max 1 furthest := by
  have come : (∃ iterator, position < 0 + pulls iterator actions) ↔ position < furthest := by
    constructor
    · rintro ⟨iterator, less⟩
      rw [Nat.zero_add] at less
      exact Nat.lt_of_lt_of_le less (most.2 ⟨iterator, rfl⟩)
    · intro less
      obtain ⟨iterator, same⟩ := most.1
      refine ⟨iterator, ?_⟩
      rw [Nat.zero_add]
      exact Nat.lt_of_lt_of_eq less same.symm
  rw [is, come, lt_max_iff, Nat.lt_one_iff]

/-- A source is asked as far as its furthest consumer goes. It is made a stream, and then only the
clones of the stream are looked into, by any iterators that are pulled in any order. Every iterator
is given the items in order from the first. The source is asked once for every item up to the
furthest that an iterator has come to, at least for the first one and never behind its end. -/
theorem source_asked_as_far_as_pulled (routines : ρ → Plan α ε ρ) (bound : Nat)
    (session : Session α ε ρ) (source : Source α ε) {actions : List (Action α ε ρ)}
    {made : Response α × Session α ε ρ} {late : List (Response α) × Session α ε ρ}
    (makes : session.perform routines (bound + 1) (.make (.lazy source)) = made)
    (goes : performAll routines (bound + 1) actions made.2 = late)
    (shares : Shares session.iterators.size [session.streams.size] (session.streams.size + 1)
      session.iterators.size actions) {furthest : Nat}
    (most : IsGreatest (Set.range fun iterator => pulls iterator actions) furthest) :
    Calm (made.1 :: late.1) ∧
      (∀ length, source.Ends length →
        (∀ iterator, drawn iterator actions late.1 =
          (List.range (pulls iterator actions)).map fun position =>
            if position < length then source.item position else none) ∧
        late.2.heap.events = session.heap.events ++
          (List.range (min (length + 1) (max 1 furthest))).flatMap source.report) ∧
      (source.Endless →
        (∀ iterator, drawn iterator actions late.1 =
          (List.range (pulls iterator actions)).map source.item) ∧
        late.2.heap.events = session.heap.events ++
          (List.range (max 1 furthest)).flatMap source.report) := by
  subst makes goes
  obtain ⟨first, serves⟩ := session.serves_made routines source (bound + 1)
  obtain ⟨calm, drew, last, supplied, is⟩ :=
    serves.performAll routines shares bound
  have come := last_iff is most
  have here := (come last).mp (Nat.le_refl _)
  have further := mt (come (last + 1)).mpr (Nat.not_succ_le_self _)
  refine ⟨calm_cons.mpr ⟨first, calm⟩, fun length ends => ⟨fun iterator => ?_, ?_⟩,
    fun endless => ⟨fun iterator => ?_, ?_⟩⟩
  · rw [drew, ← List.range_eq_range']
    exact List.map_congr_left fun position _ => ends.given position
  · rw [ends.reaches_iff] at here further
    have asked : last + 1 = min (length + 1) (max 1 furthest) := by omega
    rw [supplied.events, asked]
  · rw [drew, ← List.range_eq_range']
    exact List.map_congr_left fun position _ => endless.given position
  · have reaches := endless.reaches (last + 1)
    have asked : last + 1 = max 1 furthest := by
      have stop : ¬ last + 1 < max 1 furthest := fun less => further ⟨reaches, less⟩
      omega
    rw [supplied.events, asked]

section Turns

/-- Three items and, for whoever asks behind the end, another one. -/
def threeItems : Source Nat Nat where
  item position := [some 10, some 11, some 12, none, some 14].getD position none
  report position := [position]

/-- Two consumers of clones go on in turns, the second one less far than the first. -/
def readInTurns : List (Action Nat Nat Empty) :=
  [.make (.ref 0), .iterate 0, .pull 0, .pull 0, .drop 0, .iterate 1, .pull 1, .pull 1, .pull 0,
    .pull 0, .pull 0, .pull 1]

/-- Three items are given to both consumers, and the source is asked four times although one of them
is pulled five times. -/
theorem source_asked_up_to_its_end :
    let made := empty.perform nofun 1 (.make (.lazy threeItems))
    let late := performAll nofun 1 readInTurns made.2
    drawn 0 readInTurns late.1 = [some 10, some 11, some 12, none, none] ∧
      drawn 1 readInTurns late.1 = [some 10, some 11, some 12] ∧
      late.2.heap.events = [0, 1, 2, 3] := by
  have shares : Shares 0 [0] 1 0 readInTurns :=
    .clone (by decide) <| .iterate (by decide) <| .pull (by decide) (by decide) <|
      .pull (by decide) (by decide) <| .drop 0 <| .iterate (by decide) <|
      .pull (by decide) (by decide) <| .pull (by decide) (by decide) <|
      .pull (by decide) (by decide) <| .pull (by decide) (by decide) <|
      .pull (by decide) (by decide) <| .pull (by decide) (by decide) <| .done _ _ _
  have most : IsGreatest (Set.range fun iterator => pulls iterator readInTurns) 5 := by
    refine ⟨⟨0, by decide⟩, ?_⟩
    rintro _ ⟨_ | _ | iterator, rfl⟩
    · decide
    · decide
    · exact Nat.zero_le 5
  have ends : threeItems.Ends 3 := ⟨by decide, rfl⟩
  intro made late
  obtain ⟨_, found, _⟩ := source_asked_as_far_as_pulled nofun 0 empty threeItems (rfl : _ = made)
    (rfl : _ = late) shares most
  obtain ⟨drew, events⟩ := found 3 ends
  exact ⟨(drew 0).trans (by decide), (drew 1).trans (by decide), events.trans (by decide)⟩

end Turns

end Session

end Relational
