import Relational.Proofs.Stream.Exhaustion
import Relational.Proofs.Stream.Schedule
import Relational.Stream.Steps

/-!
# Nothing behind the steps that are asked for matters

If the sides of two merges show the same first steps then the merges show the same first steps, and
so do flat maps. What lies behind these steps may be anything on either side, also work that is
given up or never ends. Seen without sharing this is an induction on the number of steps that are
asked for: a merge looks at its second side only where its first side has ended, and where it has
not, the step that is shown leaves fewer to be asked for.
-/
namespace Relational

variable {α ε ε' ρ ρ' : Type}

namespace Reading.Fixed

variable {routines : ρ → Plan α ε ρ} {base : Heap α ε ρ} {reading : Reading α ε ρ}

/-- What a merge of two recipes makes. -/
theorem force_merge (fixed : Fixed routines base reading) (first second : Recipe α ε ρ) :
    reading.force (.merge first second) =
      (reading.force first).bind fun stream => stream.mergeWith reading second := by
  rw [fixed.force]
  rfl

/-- What a flat map of a recipe makes. -/
theorem force_mapcat (fixed : Fixed routines base reading) (source : Recipe α ε ρ)
    (body : α → Plan α ε ρ) (scope : List (Unshared α ε ρ)) :
    reading.force (.mapcat source body scope) = (reading.force source).bind fun stream =>
      stream.mapcatWith reading body scope fun value => (body value).read reading scope := by
  rw [fixed.force]
  rfl

end Reading.Fixed

namespace Unshared

/-- Nothing is made of a value for which the body makes nothing. -/
theorem mapcatWith_cons_none {reading : Reading α ε ρ} {body : α → Plan α ε ρ}
    {scope : List (Unshared α ε ρ)} {apply : α → Option (Unshared α ε ρ)} {head : α}
    {tail : Recipe α ε ρ} (applied : apply head = .none) :
    (cons head tail).mapcatWith reading body scope apply = .none := by
  show (apply head).bind _ = _
  rw [applied, Option.bind_none]

section Agreeing

variable {routines : ρ → Plan α ε ρ} {routines' : ρ' → Plan α ε' ρ'} {base : Heap α ε ρ}
  {base' : Heap α ε' ρ'} {reading : Reading α ε ρ} {reading' : Reading α ε' ρ'} {count : Nat}

/-- What two readings make of something shows the same first steps, so many or fewer, or neither of
them shows any. -/
def Agree (reading : Reading α ε ρ) (reading' : Reading α ε' ρ') (count : Nat)
    (one : Option (Unshared α ε ρ)) (other : Option (Unshared α ε' ρ')) : Prop :=
  ∀ fewer < count,
    one.bind (observe reading (fewer + 1)) = other.bind (observe reading' (fewer + 1))

/-- Two streams begin with the same step, and what is behind it agrees. -/
inductive Match (reading : Reading α ε ρ) (reading' : Reading α ε' ρ') (count : Nat) :
    Unshared α ε ρ → Unshared α ε' ρ' → Prop where
  /-- Both are at their ends. -/
  | empty : Match reading reading' count empty empty
  /-- Both begin with one value. -/
  | cons (head : α) {tail : Recipe α ε ρ} {tail' : Recipe α ε' ρ'}
    (behind : Agree reading reading' count (reading.force tail) (reading'.force tail')) :
    Match reading reading' count (cons head tail) (cons head tail')
  /-- Both are suspended. -/
  | suspended {content : Recipe α ε ρ} {content' : Recipe α ε' ρ'}
    (behind : Agree reading reading' count (reading.force content) (reading'.force content')) :
    Match reading reading' count (suspended content) (suspended content')

/-- What agrees about some steps agrees about fewer. -/
theorem Agree.fewer {one : Option (Unshared α ε ρ)} {other : Option (Unshared α ε' ρ')}
    {more : Nat} (agree : Agree reading reading' more one other) (le : count ≤ more) :
    Agree reading reading' count one other :=
  fun fewer less => agree fewer (by omega)

/-- Where nothing is made on either side nothing is shown. -/
theorem Agree.none : Agree reading reading' count none none := fun _ _ => rfl

/-- Streams that begin with the same step agree if what is behind it agrees about fewer. -/
theorem Match.agree {one : Unshared α ε ρ} {other : Unshared α ε' ρ'}
    (same : Match reading reading' count one other) :
    Agree reading reading' (count + 1) (some one) (some other) := by
  have behind {step : Step α} {recipe : Recipe α ε ρ} {recipe' : Recipe α ε' ρ'}
      (agree : Agree reading reading' count (reading.force recipe) (reading'.force recipe'))
      {fewer : Nat} (less : fewer < count + 1) :
      (recipe.observe reading fewer).map (step :: ·) =
        (recipe'.observe reading' fewer).map (step :: ·) := by
    cases fewer with
    | zero => rfl
    | succ fewer => exact congrArg (Option.map (step :: ·)) (agree fewer (by omega))
  intro fewer less
  rw [Option.bind_some, Option.bind_some]
  cases same with
  | empty => rw [observe_empty, observe_empty]
  | cons head agree => rw [observe_cons, observe_cons, behind agree less]
  | suspended agree => rw [observe_suspended, observe_suspended, behind agree less]

/-- What agrees about one step or more is made on neither side, or begins with the same step and
agrees about one step less behind it. -/
theorem Agree.cases {one : Option (Unshared α ε ρ)} {other : Option (Unshared α ε' ρ')}
    (agree : Agree reading reading' (count + 1) one other) :
    one = .none ∧ other = .none ∨
      ∃ stream stream', one = some stream ∧ other = some stream' ∧
        Match reading reading' count stream stream' := by
  have first := agree 0 (Nat.succ_pos count)
  have behind (step : Step α) {recipe : Recipe α ε ρ} {recipe' : Recipe α ε' ρ'}
      (agree : ∀ fewer < count + 1, (recipe.observe reading fewer).map (step :: ·) =
        (recipe'.observe reading' fewer).map (step :: ·)) :
      Agree reading reading' count (reading.force recipe) (reading'.force recipe') :=
    fun fewer less =>
      Option.map_injective (fun _ _ same => (List.cons.inj same).2) (agree (fewer + 1) (by omega))
  cases one with
  | none =>
    cases other with
    | none => exact .inl ⟨rfl, rfl⟩
    | some stream' => cases stream' <;> exact nomatch first
  | some stream =>
    cases other with
    | none => cases stream <;> exact nomatch first
    | some stream' =>
      refine .inr ⟨stream, stream', rfl, rfl, ?_⟩
      cases stream with
      | empty =>
        cases stream' with
        | empty => exact .empty
        | cons | suspended => exact nomatch first
      | cons head tail =>
        cases stream' with
        | empty | suspended => exact nomatch first
        | cons head' tail' =>
          cases first
          refine .cons head (behind (.value head) fun fewer less => ?_)
          have same := agree fewer less
          rwa [Option.bind_some, Option.bind_some, observe_cons, observe_cons] at same
      | suspended content =>
        cases stream' with
        | empty | cons => exact nomatch first
        | suspended content' =>
          refine .suspended (behind .tick fun fewer less => ?_)
          have same := agree fewer less
          rwa [Option.bind_some, Option.bind_some, observe_suspended, observe_suspended] at same

variable (fixed : Reading.Fixed routines base reading)
  (fixed' : Reading.Fixed routines' base' reading')

include fixed fixed'

/-- Merges agree about as many steps as their sides. -/
theorem Agree.merge {first second : Recipe α ε ρ} {first' second' : Recipe α ε' ρ'}
    (one : Agree reading reading' count (reading.force first) (reading'.force first'))
    (other : Agree reading reading' count (reading.force second) (reading'.force second')) :
    Agree reading reading' count (reading.force (.merge first second))
      (reading'.force (.merge first' second')) := by
  induction count generalizing first second first' second' with
  | zero => exact fun _ impossible => absurd impossible (Nat.not_lt_zero _)
  | succ count turned =>
    rw [fixed.force_merge, fixed'.force_merge]
    rcases one.cases with ⟨made, made'⟩ | ⟨stream, stream', made, made', same⟩
    · rw [made, made']
      exact .none
    · rw [made, made', Option.bind_some, Option.bind_some]
      have fewer := other.fewer (Nat.le_succ count)
      cases same with
      | empty => exact other
      | cons head behind => exact (Match.cons head (turned fewer behind)).agree
      | suspended behind => exact (Match.suspended (turned fewer behind)).agree

/-- Where the first sides have not ended, their merges are asked for one step less of the second
sides. -/
theorem Match.mergeWith {first : Unshared α ε ρ} {first' : Unshared α ε' ρ'}
    {second : Recipe α ε ρ} {second' : Recipe α ε' ρ'} (going : first ≠ .empty)
    (same : Match reading reading' count first first')
    (other : Agree reading reading' count (reading.force second) (reading'.force second')) :
    Agree reading reading' (count + 1) (first.mergeWith reading second)
      (first'.mergeWith reading' second') := by
  cases same with
  | empty => exact absurd rfl going
  | cons head behind => exact (Match.cons head (other.merge fixed fixed' behind)).agree
  | suspended behind => exact (Match.suspended (other.merge fixed fixed' behind)).agree

/-- Merges of streams agree about as many steps as their sides. -/
theorem Agree.mergeWith {first : Unshared α ε ρ} {first' : Unshared α ε' ρ'}
    {second : Recipe α ε ρ} {second' : Recipe α ε' ρ'}
    (one : Agree reading reading' count (some first) (some first'))
    (other : Agree reading reading' count (reading.force second) (reading'.force second')) :
    Agree reading reading' count (first.mergeWith reading second)
      (first'.mergeWith reading' second') := by
  cases count with
  | zero => exact fun _ impossible => absurd impossible (Nat.not_lt_zero _)
  | succ count =>
    rcases one.cases with ⟨impossible, _⟩ | ⟨_, _, made, made', same⟩
    · exact nomatch impossible
    · cases made
      cases made'
      by_cases ended : first = .empty
      · subst ended
        cases same
        exact other
      · exact Match.mergeWith fixed fixed' ended same (other.fewer (Nat.le_succ count))

variable {body : α → Plan α ε ρ} {body' : α → Plan α ε' ρ'} {scope : List (Unshared α ε ρ)}
  {scope' : List (Unshared α ε' ρ')}

/-- Flat maps agree about one step more than flat maps behind the first step. -/
theorem Match.mapcatWith {source : Unshared α ε ρ} {source' : Unshared α ε' ρ'}
    {apply : α → Option (Unshared α ε ρ)} {apply' : α → Option (Unshared α ε' ρ')}
    (same : Match reading reading' count source source')
    (applied : ∀ value, Agree reading reading' (count + 1) (apply value) (apply' value))
    (behind : ∀ {tail : Recipe α ε ρ} {tail' : Recipe α ε' ρ'},
      Agree reading reading' count (reading.force tail) (reading'.force tail') →
        Agree reading reading' count (reading.force (.mapcat tail body scope))
          (reading'.force (.mapcat tail' body' scope'))) :
    Agree reading reading' (count + 1) (source.mapcatWith reading body scope apply)
      (source'.mapcatWith reading' body' scope' apply') := by
  cases same with
  | empty => exact Match.empty.agree
  | suspended tails => exact (Match.suspended (behind tails)).agree
  | cons head tails =>
    rcases (applied head).cases with ⟨made, made'⟩ | ⟨first, first', made, made', same⟩
    · rw [mapcatWith_cons_none made, mapcatWith_cons_none made']
      exact .none
    · by_cases ended : first = .empty
      · subst ended
        cases same
        rw [mapcatWith_cons_empty made, mapcatWith_cons_empty made']
        exact (Match.suspended (behind tails)).agree
      · have ended' : first' ≠ .empty := by
          rintro rfl
          cases same
          exact ended rfl
        rw [mapcatWith_cons made ended, mapcatWith_cons made' ended']
        exact Match.mergeWith fixed fixed' ended same (behind tails)

/-- Flat maps of recipes agree about as many steps as their sources and what is made of values. -/
theorem Agree.mapcat {source : Recipe α ε ρ} {source' : Recipe α ε' ρ'}
    (same : Agree reading reading' count (reading.force source) (reading'.force source'))
    (applied : ∀ value, Agree reading reading' count ((body value).read reading scope)
      ((body' value).read reading' scope')) :
    Agree reading reading' count (reading.force (.mapcat source body scope))
      (reading'.force (.mapcat source' body' scope')) := by
  induction count generalizing source source' with
  | zero => exact fun _ impossible => absurd impossible (Nat.not_lt_zero _)
  | succ count shorter =>
    rw [fixed.force_mapcat, fixed'.force_mapcat]
    rcases same.cases with ⟨made, made'⟩ | ⟨stream, stream', made, made', same⟩
    · rw [made, made']
      exact .none
    · rw [made, made', Option.bind_some, Option.bind_some]
      exact same.mapcatWith fixed fixed' applied fun tails =>
        shorter tails fun value => (applied value).fewer (Nat.le_succ count)

/-- Flat maps of streams agree about as many steps as their sources and what is made of values. -/
theorem Agree.mapcatWith {source : Unshared α ε ρ} {source' : Unshared α ε' ρ'}
    (same : Agree reading reading' count (some source) (some source'))
    (applied : ∀ value, Agree reading reading' count ((body value).read reading scope)
      ((body' value).read reading' scope')) :
    Agree reading reading' count
      (source.mapcatWith reading body scope fun value => (body value).read reading scope)
      (source'.mapcatWith reading' body' scope' fun value =>
        (body' value).read reading' scope') := by
  cases count with
  | zero => exact fun _ impossible => absurd impossible (Nat.not_lt_zero _)
  | succ count =>
    rcases same.cases with ⟨impossible, _⟩ | ⟨_, _, made, made', same⟩
    · exact nomatch impossible
    · cases made
      cases made'
      exact same.mapcatWith fixed fixed' applied fun tails =>
        tails.mapcat fixed fixed' fun value => (applied value).fewer (Nat.le_succ count)

end Agreeing

end Unshared

namespace Stream

section Drawing

variable {handlers : Handlers α ε ρ} {heap : Heap α ε ρ}

/-- An iterator gives the values among the steps that are seen, as many as it is asked for; beyond
them it gives none if the end is seen. Forcing the next cell behind a step takes up one of the
bound. -/
theorem take_of_observe {count number bound : Nat} {stream : Stream α} {steps : Steps α}
    {before : List α} {after : Heap α ε ρ}
    (seen : stream.observe handlers count heap = .ok steps after)
    (asked : number ≤ steps.values.length ∨ .finish ∈ steps) (room : count ≤ bound) :
    (Iterator.takeAfter handlers bound before number ⟨stream⟩ heap).outcome =
      .ok (before.reverse ++ steps.values.take number) := by
  induction count generalizing stream heap steps number before bound with
  | zero =>
    rw [observe_zero] at seen
    cases seen
    have none : number = 0 := by simpa [Steps.values] using asked
    rw [none]
    exact congrArg Except.ok (List.append_nil _).symm
  | succ count further =>
    obtain ⟨bound, rfl⟩ : ∃ rest, bound = rest + 1 := ⟨bound - 1, by omega⟩
    cases number with
    | zero => exact congrArg Except.ok (List.append_nil _).symm
    | succ number =>
      have later {cell : CellId} {next : Stream α} {between : Heap α ε ρ} {rest : Steps α}
          {number : Nat} {before : List α} (forced : handlers.force cell heap = .ok next between)
          (seen : next.observe handlers count between = .ok rest after)
          (asked : number ≤ rest.values.length ∨ .finish ∈ rest) :
          (Iterator.takeAfter handlers (bound + 1) before number ⟨suspended cell⟩ heap).outcome =
            .ok (before.reverse ++ rest.values.take number) :=
        Iterator.takeAfter_suspended forced (further seen asked (by omega))
          (further seen asked (by omega))
      cases stream with
      | empty =>
        have ended : steps = [.finish] := by cases count <;> cases seen <;> rfl
        subst ended
        exact Iterator.takeAfter_succ_eq_ok.mpr (.inl ⟨heap, rfl, (List.append_nil _).symm⟩)
      | cons head tail =>
        refine Iterator.takeAfter_succ_eq_ok.mpr (.inr ⟨head, suspended tail, heap, rfl, ?_⟩)
        have taken {rest : Steps α} :
            before.reverse ++ (Steps.values (.value head :: rest)).take (number + 1) =
              (head :: before).reverse ++ rest.values.take number := by
          rw [List.reverse_cons, List.append_assoc]
          rfl
        cases count with
        | zero =>
          cases seen
          have none : number = 0 := by simpa [Steps.values] using asked
          rw [taken, none]
          exact congrArg Except.ok (List.append_nil _).symm
        | succ count =>
          obtain ⟨rest, next, between, rfl, forced, seen⟩ := observe_behind seen
          rw [taken]
          refine later forced seen ?_
          simpa [Steps.values] using asked
      | suspended cell =>
        cases count with
        | zero =>
          cases seen
          simp [Steps.values] at asked
        | succ count =>
          obtain ⟨rest, next, between, rfl, forced, seen⟩ := observe_behind seen
          have asked : number + 1 ≤ (Steps.values rest).length ∨ .finish ∈ rest := by
            simpa [Steps.values] using asked
          have same : Steps.values (.tick :: rest) = Steps.values rest := rfl
          rw [same]
          exact later forced seen asked

/-- Where a pull gives a value it has forced one cell after another up to the value, and not the
tail behind it. -/
theorem advance_of_uncons? {bound : Nat} {stream rest : Stream α} {head : α} {after : Heap α ε ρ}
    (pulled : stream.uncons? handlers bound heap = .ok (some (head, rest)) after) :
    ∃ moves tail, rest = suspended tail ∧
      stream.advance handlers moves heap = .ok (cons head tail) after := by
  have first : ∀ {heap : Heap α ε ρ} {other : α} {tail : CellId},
      (pure (some (other, suspended tail)) : Run α ε ρ _) heap = .ok (some (head, rest)) after →
        ∃ moves tail', rest = suspended tail' ∧
          (cons other tail).advance handlers moves heap = .ok (cons head tail') after := by
    intro heap other tail pulled
    cases pulled
    exact ⟨0, tail, rfl, rfl⟩
  induction bound generalizing stream heap with
  | zero =>
    cases stream with
    | empty => exact nomatch pulled
    | cons other tail => exact first pulled
    | suspended cell => exact nomatch pulled
  | succ bound further =>
    cases stream with
    | empty => exact nomatch pulled
    | cons other tail => exact first pulled
    | suspended cell =>
      obtain ⟨stream, between, forced, pulled⟩ := Run.bind_eq_ok.mp pulled
      obtain ⟨moves, tail, same, gone⟩ := further pulled
      exact ⟨moves + 1, tail, same, Run.bind_eq_ok.mpr ⟨stream, between, forced, gone⟩⟩

/-- One way along a stream goes on where another ends. -/
theorem advance_add {first second : Nat} {stream middle last : Stream α}
    {between after : Heap α ε ρ} (gone : stream.advance handlers first heap = .ok middle between)
    (further : middle.advance handlers second between = .ok last after) :
    stream.advance handlers (first + second) heap = .ok last after := by
  induction first generalizing stream heap with
  | zero =>
    cases gone
    rw [Nat.zero_add]
    exact further
  | succ first later =>
    obtain ⟨next, nextHeap, stepped, gone⟩ := Run.bind_eq_ok.mp gone
    rw [Nat.succ_add]
    exact Run.bind_eq_ok.mpr ⟨next, nextHeap, stepped, later gone⟩

/-- What is pulled comes behind what was pulled before. -/
theorem exists_of_takeAfter {bound number : Nat} {stream : Stream α} {before answers : List α}
    (taken : (Iterator.takeAfter handlers bound before number ⟨stream⟩ heap).outcome =
      .ok answers) : ∃ values, answers = before.reverse ++ values := by
  induction number generalizing stream heap before with
  | zero =>
    cases taken
    exact ⟨[], (List.append_nil _).symm⟩
  | succ number further =>
    rcases Iterator.takeAfter_succ_eq_ok.mp taken with ⟨_, _, same⟩ | ⟨head, rest, _, _, later⟩
    · exact ⟨[], by rw [List.append_nil, same]⟩
    · obtain ⟨values, same⟩ := further later
      rw [List.reverse_cons, List.append_assoc] at same
      exact ⟨_, same⟩

/-- Where pulls have given as many values as were asked for they have forced one cell after another
up to the last value, and not the tail behind it. Forcing the tail behind a value is forcing the
suspension that the iterator was left at. -/
theorem advance_of_takeAfter {bound number : Nat} {stream : Stream α} {before values : List α}
    (taken : (Iterator.takeAfter handlers bound before (number + 1) ⟨stream⟩ heap).outcome =
      .ok (before.reverse ++ values)) (all : values.length = number + 1) :
    ∃ moves value tail after, values.getLast? = some value ∧
      stream.advance handlers moves heap = .ok (cons value tail) after ∧
        Iterator.takeAfter handlers bound before (number + 1) ⟨stream⟩ heap =
          ⟨.ok (before.reverse ++ values), ⟨suspended tail⟩, after⟩ := by
  induction number generalizing stream heap before values with
  | zero =>
    rcases Iterator.takeAfter_succ_eq_ok.mp taken with ⟨_, _, same⟩ | ⟨head, _, after, pulled, last⟩
    · rw [List.self_eq_append_right.mp same] at all
      cases all
    · obtain ⟨moves, tail, rfl, gone⟩ := advance_of_uncons? pulled
      have same : [head] = values := by
        rw [Iterator.takeAfter, Except.ok.injEq, List.reverse_cons] at last
        exact List.append_cancel_left last
      subst same
      refine ⟨moves, head, tail, after, rfl, gone, ?_⟩
      simp only [Iterator.takeAfter, Iterator.next, pulled, List.reverse_cons]
  | succ number further =>
    rcases Iterator.takeAfter_succ_eq_ok.mp taken with ⟨_, _, same⟩ | ⟨head, _, after, pulled, last⟩
    · rw [List.self_eq_append_right.mp same] at all
      cases all
    · obtain ⟨moves, tail, rfl, gone⟩ := advance_of_uncons? pulled
      obtain ⟨others, same⟩ := exists_of_takeAfter last
      rw [List.reverse_cons, List.append_assoc] at same
      have split : values = head :: others := List.append_cancel_left same
      subst split
      have front : before.reverse ++ head :: others = (head :: before).reverse ++ others := by
        rw [List.reverse_cons, List.append_assoc]
        rfl
      rw [front] at last
      obtain ⟨more, value, tail', last', found, gone', pulls⟩ :=
        further last (Nat.succ.inj all)
      have behind :
          (cons head tail).advance handlers more after = .ok (cons value tail') last' := by
        cases more with
        | zero => cases gone'
        | succ more => exact gone'
      refine ⟨moves + more, value, tail', last', ?_, advance_add gone behind, ?_⟩
      · rw [List.getLast?_cons, found]
        rfl
      · rw [front, ← pulls]
        simp only [Iterator.takeAfter, Iterator.next, pulled]

/-- An iterator draws the values among the steps that a stream shows. -/
theorem Shows.draws {routines : ρ → Plan α ε ρ} {count : Nat} {stream : Stream α}
    {steps : Steps α} (shows : stream.Shows routines heap count steps) :
    stream.Draws routines heap steps := by
  obtain ⟨bound, after, seen⟩ := shows
  refine ⟨max bound count, fun more enough number asked => ?_⟩
  have above : bound ≤ more := Nat.le_trans (Nat.le_max_left _ _) enough
  have room : count ≤ more := Nat.le_trans (Nat.le_max_right _ _) enough
  have seen :=
    ((Handlers.Steady.observe count stream).refines (handlers_mono routines above)).ok seen
  rw [Iterator.take, take_of_observe seen asked room, List.reverse_nil, List.nil_append]

end Drawing

section Deciding

variable {routines : ρ → Plan α ε ρ} {routines' : ρ' → Plan α ε' ρ'} {heap : Heap α ε ρ}
  {heap' : Heap α ε' ρ'} {count : Nat}

/-- What shows the steps of something read is alike where what is read agrees. -/
theorem alike_iff {ones others : Nat → Steps α → Prop} {one : Option (Unshared α ε ρ)}
    {other : Option (Unshared α ε' ρ')}
    (first : ∀ {count steps}, ones count steps ↔
      ∃ made, one = some made ∧ made.observe (.full routines heap) count = some steps)
    (second : ∀ {count steps}, others count steps ↔
      ∃ made, other = some made ∧ made.observe (.full routines' heap') count = some steps) :
    Steps.Alike count ones others ↔
      Unshared.Agree (.full routines heap) (.full routines' heap') count one other := by
  constructor
  · intro alike fewer less
    refine Option.ext fun steps => ?_
    rw [Option.bind_eq_some_iff, Option.bind_eq_some_iff]
    exact first.symm.trans ((alike fewer less steps).trans second)
  · intro agree fewer less steps
    rw [first, second, ← Option.bind_eq_some_iff, ← Option.bind_eq_some_iff, agree fewer less]

/-- A stream shows what is read of it. -/
theorem shows_iff_exists (closed : heap.Closed) {stream : Stream α}
    (within : stream.Within heap.cells.size) {count : Nat} {steps : Steps α} :
    stream.Shows routines heap count steps ↔ ∃ made, some (stream.unshared .cell) = some made ∧
      made.observe (.full routines heap) count = some steps := by
  rw [shows_iff_of_closed closed within]
  constructor
  · exact fun seen => ⟨_, rfl, seen⟩
  · rintro ⟨_, same, seen⟩
    cases same
    exact seen

/-- Streams that show the same steps are alike as far as these go. -/
theorem alike_of_shows (closed : heap.Closed) (closed' : heap'.Closed) {first first' : Stream α}
    (within : first.Within heap.cells.size) (within' : first'.Within heap'.cells.size)
    {steps : Steps α} (shows : first.Shows routines heap count steps)
    (shows' : first'.Shows routines' heap' count steps) :
    Steps.Alike count (first.Shows routines heap) (first'.Shows routines' heap') := by
  intro fewer less others
  rw [shows_iff_of_closed closed within] at shows ⊢
  rw [shows_iff_of_closed closed' within'] at shows' ⊢
  rw [Unshared.observe_take less shows, Unshared.observe_take less shows']

/-- What merges, flat maps and iterators come to on two closed heaps is decided, about so many first
steps, by as many first steps of the streams they are made of. -/
structure DecidedByFirst (routines : ρ → Plan α ε ρ) (heap : Heap α ε ρ)
    (routines' : ρ' → Plan α ε' ρ') (heap' : Heap α ε' ρ') (count : Nat) : Prop where
  /-- Merges are alike where their sides are. -/
  merge : ∀ {first second first' second' : Stream α}, first.Within heap.cells.size →
    second.Within heap.cells.size → first'.Within heap'.cells.size →
      second'.Within heap'.cells.size →
        Steps.Alike count (first.Shows routines heap) (first'.Shows routines' heap') →
          Steps.Alike count (second.Shows routines heap) (second'.Shows routines' heap') →
            Steps.Alike count
              (Run.Shows routines heap fun handlers => first.merge handlers second)
              (Run.Shows routines' heap' fun handlers => first'.merge handlers second')
  /-- Where both sides show so many steps a merge is made and shows as many. -/
  merged : ∀ {first second : Stream α}, first.Within heap.cells.size →
    second.Within heap.cells.size → ∀ fewer < count, ∀ ones others,
      first.Shows routines heap (fewer + 1) ones → second.Shows routines heap (fewer + 1) others →
        Run.Shows routines heap (fun handlers => first.merge handlers second) (fewer + 1)
          ((Steps.alternate ones others).take (fewer + 1))
  /-- Flat maps are alike where their sources are and what their bodies make of every value. -/
  mapcat : ∀ {source source' : Stream α} {scope scope' : List (Stream α)}
    {body : α → Plan α ε ρ} {body' : α → Plan α ε' ρ'}, source.Within heap.cells.size →
      source'.Within heap'.cells.size → (∀ stream ∈ scope, stream.Within heap.cells.size) →
        (∀ stream ∈ scope', stream.Within heap'.cells.size) →
          Steps.Alike count (source.Shows routines heap) (source'.Shows routines' heap') →
            (∀ value, Steps.Alike count ((body value).Shows routines heap scope)
              ((body' value).Shows routines' heap' scope')) →
                Steps.Alike count
                  (Run.Shows routines heap fun handlers => source.mapcatWith handlers body scope
                    fun value => (body value).eval handlers scope)
                  (Run.Shows routines' heap' fun handlers =>
                    source'.mapcatWith handlers body' scope' fun value =>
                      (body' value).eval handlers scope')
  /-- Where the source shows so many steps, and what is made of each value among them, a flat map is
  made and shows as many. -/
  mapped : ∀ {source : Stream α} {scope : List (Stream α)} {body : α → Plan α ε ρ},
    source.Within heap.cells.size → (∀ stream ∈ scope, stream.Within heap.cells.size) →
      ∀ fewer < count, ∀ ones made, source.Shows routines heap (fewer + 1) ones →
        (∀ value, .value value ∈ ones →
          (body value).Shows routines heap scope (fewer + 1) (made value)) →
            Run.Shows routines heap (fun handlers => source.mapcatWith handlers body scope
              fun value => (body value).eval handlers scope) (fewer + 1)
                ((Steps.flatMap made ones).take (fewer + 1))
  /-- Iterators draw the same values from what is alike: those among the steps that are shown. -/
  draws : ∀ {run : Handlers α ε ρ → Run α ε ρ (Stream α)}
    {run' : Handlers α ε' ρ' → Run α ε' ρ' (Stream α)},
      Steps.Alike count (Run.Shows routines heap run) (Run.Shows routines' heap' run') →
        ∀ fewer < count, ∀ steps, Run.Shows routines heap run (fewer + 1) steps →
          (∃ bound made after, run (handlers routines bound) heap = .ok made after ∧
            made.Draws routines after steps) ∧
          ∃ bound made after, run' (handlers routines' bound) heap' = .ok made after ∧
            made.Draws routines' after steps
  /-- An iterator that has given as many values as it was asked for has forced one cell after
  another up to the last value, and nothing else: it is left at the tail behind the value. -/
  stops : ∀ (handlers : Handlers α ε ρ) (bound number : Nat) (stream : Stream α)
    (late : Heap α ε ρ) (values : List α),
      (Iterator.take handlers bound (number + 1) ⟨stream⟩ late).outcome = .ok values →
        values.length = number + 1 → ∃ moves value tail after, values.getLast? = some value ∧
          stream.advance handlers moves late = .ok (cons value tail) after ∧
            Iterator.take handlers bound (number + 1) ⟨stream⟩ late =
              ⟨.ok values, ⟨suspended tail⟩, after⟩

variable (routines routines') in
/-- Nothing behind a step that is not yet shown can influence what is shown. Whatever lies there on
either of two closed heaps, work that is given up or never ends included, merges and flat maps of
streams whose first steps are alike have first steps that are alike, and iterators give the same
values up to there without a look at what is behind. -/
theorem first_steps_decide (closed : heap.Closed) (closed' : heap'.Closed) (count : Nat) :
    DecidedByFirst routines heap routines' heap' count where
  merge within withinOther within' withinOther' one other := by
    have fixed := Reading.limit_fixed routines heap
    have fixed' := Reading.limit_fixed routines' heap'
    rw [alike_iff (shows_iff_exists closed within) (shows_iff_exists closed' within')] at one
    rw [alike_iff (shows_iff_exists closed withinOther)
      (shows_iff_exists closed' withinOther')] at other
    rw [alike_iff (Run.shows_iff (implements_merge closed within withinOther) (.mergeWith _ _))
      (Run.shows_iff (implements_merge closed' within' withinOther') (.mergeWith _ _))]
    refine one.mergeWith fixed fixed' ?_
    rw [fixed.force, fixed'.force]
    exact other
  merged within withinOther fewer less ones others one other := by
    have first {stream : Stream α} (within : stream.Within heap.cells.size) {steps : Steps α}
        (shows : stream.Shows routines heap (fewer + 1) steps) :
        stream.Shows routines heap 1 (steps.take 1) := by
      rw [shows_iff_of_closed closed within] at shows ⊢
      exact Unshared.observe_take (Nat.le_add_left 1 fewer) shows
    obtain ⟨bound, merged, after, ran⟩ :=
      exists_merge closed within withinOther (first within one) (first withinOther other)
    exact ⟨bound, merged, after, ran,
      (shows_merge closed within withinOther ran one other).mpr rfl⟩
  mapcat {source source' scope scope' body body'} within within' withinScope withinScope' same
      applied := by
    have fixed := Reading.limit_fixed routines heap
    have fixed' := Reading.limit_fixed routines' heap'
    rw [alike_iff (shows_iff_exists closed within) (shows_iff_exists closed' within')] at same
    have applied := fun value => (alike_iff (plan_shows_iff closed withinScope)
      (plan_shows_iff closed' withinScope')).mp (applied value)
    rw [alike_iff (Run.shows_iff (implements_mapcat closed withinScope within body)
        (.mapcatWith body _ (fun value => .plan (body value) _) _))
      (Run.shows_iff (implements_mapcat closed' withinScope' within' body')
        (.mapcatWith body' _ (fun value => .plan (body' value) _) _))]
    exact same.mapcatWith fixed fixed' applied
  mapped {source scope body} within withinScope fewer less ones made shows applied := by
    obtain ⟨mapped, read, seen⟩ := Unshared.observe_mapcatWith
      (Reading.limit_fixed routines heap) ((shows_iff_of_closed closed within).mp shows)
      fun value member => (plan_shows_iff closed withinScope).mp (applied value member)
    exact (Run.shows_iff (implements_mapcat closed withinScope within body)
      (.mapcatWith body _ (fun value => .plan (body value) _) _)).mpr ⟨mapped, read, seen⟩
  draws alike fewer less steps shows := by
    obtain ⟨bound, made, after, ran, shown⟩ := shows
    obtain ⟨bound', made', after', ran', shown'⟩ :=
      (alike fewer less steps).mp ⟨bound, made, after, ran, shown⟩
    exact ⟨⟨bound, made, after, ran, shown.draws⟩, bound', made', after', ran', shown'.draws⟩
  stops handlers bound number stream late values taken all :=
    advance_of_takeAfter taken all

end Deciding

/-- A heap of a tail that is given up when it is forced. -/
def guarded : Heap Nat Unit Empty :=
  ⟨#[⟨.plan (.fail (.raised "Tail must not be forced")) [], .waiting⟩], #[]⟩

/-- The heap of a tail that is given up is closed. -/
theorem guarded_closed : guarded.Closed := by
  constructor
  · intro cell found there
    rcases cell with _ | cell
    · cases there
      exact fun _ impossible => nomatch impossible
    · exact nomatch there
  · intro cell work stream there
    rcases cell with _ | cell
    · exact nomatch there
    · exact nomatch there

/-- Of two streams that begin with `1` one goes on with a tail that must not be forced and the other
one with endless ticks. Merges and flat maps of both begin with `1`, and iterators give it. -/
theorem tails_left_alone :
    let merge : Handlers Nat Unit Empty → Run Nat Unit Empty (Stream Nat) :=
      fun handlers => (cons 1 0).merge handlers (cons 2 0)
    let mapcat : Handlers Nat Unit Empty → Run Nat Unit Empty (Stream Nat) :=
      fun handlers => (cons 1 0).mapcatWith handlers .unit [] fun value =>
        (Plan.unit value).eval handlers []
    (Run.Shows nofun guarded merge 1 [.value 1] ∧ Run.Shows nofun looped merge 1 [.value 1]) ∧
      (Run.Shows nofun guarded mapcat 1 [.value 1] ∧ Run.Shows nofun looped mapcat 1 [.value 1]) ∧
        ∃ bound moves tail after,
          (cons 1 0 : Stream Nat).advance (handlers nofun bound) moves guarded =
            .ok (cons 1 tail) after ∧
              Iterator.take (handlers nofun bound) bound 1 ⟨cons 1 0⟩ guarded =
                ⟨.ok [1], ⟨suspended tail⟩, after⟩ := by
  intro merge mapcat
  have within (value : Nat) : (cons value 0 : Stream Nat).Within guarded.cells.size :=
    Nat.succ_pos 0
  have within' (value : Nat) : (cons value 0 : Stream Nat).Within looped.cells.size :=
    Nat.succ_pos 1
  have none {size : Nat} : ∀ stream ∈ ([] : List (Stream Nat)), stream.Within size :=
    fun _ impossible => nomatch impossible
  have shows (heap : Heap Nat Unit Empty) (value : Nat) :
      (cons value 0 : Stream Nat).Shows nofun heap (0 + 1) [.value value] := ⟨0, heap, rfl⟩
  have alike (value : Nat) := alike_of_shows guarded_closed looped_closed (within value)
    (within' value) (shows guarded value) (shows looped value)
  have applied (value : Nat) :
      Steps.Alike 1 ((Plan.unit value : Plan Nat Unit Empty).Shows nofun guarded [])
        ((Plan.unit value : Plan Nat Unit Empty).Shows nofun looped []) := by
    intro fewer less steps
    obtain rfl : fewer = 0 := by omega
    rw [plan_shows_iff guarded_closed none, plan_shows_iff looped_closed none]
    constructor
    · rintro ⟨made, same, seen⟩
      cases same
      exact ⟨_, rfl, seen⟩
    · rintro ⟨made, same, seen⟩
      cases same
      exact ⟨_, rfl, seen⟩
  have decided := first_steps_decide nofun nofun guarded_closed looped_closed 1
  have merged : Run.Shows nofun guarded merge 1 [.value 1] := by
    have first : (Steps.alternate [.value 1] [.value 2]).take (0 + 1) = [Step.value 1] := by simp
    exact first ▸ decided.merged (within 1) (within 2) 0 (by decide) _ _ (shows guarded 1)
      (shows guarded 2)
  have mapped : Run.Shows nofun guarded mapcat 1 [.value 1] := by
    have first : (Steps.flatMap (fun value => [Step.value value]) [.value 1]).take (0 + 1) =
        [Step.value 1] := by simp [Steps.flatMap]
    exact first ▸ decided.mapped (within 1) none 0 (by decide) _ _ (shows guarded 1)
      fun value _ => ⟨0, _, _, rfl, 0, _, rfl⟩
  refine ⟨⟨merged, ?_⟩, ⟨mapped, ?_⟩, ?_⟩
  · exact (decided.merge (within 1) (within 2) (within' 1) (within' 2) (alike 1) (alike 2) 0
      (by decide) _).mp merged
  · exact (decided.mapcat (within 1) (within' 1) none none (alike 1) applied 0
      (by decide) _).mp mapped
  · obtain ⟨moves, value, tail, after, last, gone, taken⟩ :=
      decided.stops (handlers nofun 1) 1 0 (cons 1 0) guarded [1] rfl rfl
    cases last
    exact ⟨1, moves, tail, after, gone, taken⟩

end Stream

end Relational
