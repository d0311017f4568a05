import Relational.Proofs.Stream.Emission
import Relational.Proofs.Stream.Pulling

/-!
# Streams that end

Where all the steps of a stream up to its end can be seen, its values are a list. A merge of two
streams that end comes to an end with the values of both of them, and a flat map over a stream
that ends comes to an end with what the body makes of each of its values: in some order, since
they take turns, but each of them exactly once. An iterator pulls these values one by one and then
stays at the end.
-/
namespace Relational

variable {α ε ρ : Type}

/-- All the values of a sequence, where its end is known. -/
def Steps.whole? : Steps α → Option (List α)
  | [] => none
  | .finish :: _ => some []
  | .tick :: steps => whole? steps
  | .value value :: steps => (whole? steps).map (value :: ·)

namespace Unshared

/-- A stream comes to its end behind so many steps, with these values on the way. -/
inductive Drains (reading : Reading α ε ρ) : Nat → Unshared α ε ρ → List α → Prop where
  /-- It is at its end. -/
  | empty : Drains reading 0 empty []
  /-- It comes there behind a value. -/
  | cons {count : Nat} {head : α} {tail : Recipe α ε ρ} {stream : Unshared α ε ρ}
    {values : List α} (forced : reading.force tail = some stream)
    (later : Drains reading count stream values) :
    Drains reading (count + 1) (cons head tail) (head :: values)
  /-- It comes there behind a tick. -/
  | suspended {count : Nat} {content : Recipe α ε ρ} {stream : Unshared α ε ρ}
    {values : List α} (forced : reading.force content = some stream)
    (later : Drains reading count stream values) :
    Drains reading (count + 1) (suspended content) values

/-- A stream comes to its end, and its values are these in some order. -/
def Lists (reading : Reading α ε ρ) (stream : Unshared α ε ρ) (values : List α) : Prop :=
  ∃ count found, stream.Drains reading count found ∧ found.Perm values

variable {routines : ρ → Plan α ε ρ} {base : Heap α ε ρ} {reading : Reading α ε ρ}
  {stream one other : Unshared α ε ρ} {recipe : Recipe α ε ρ} {ones others values : List α}

/-- All steps of a stream that comes to its end can be seen. -/
theorem Drains.exists_observe {count : Nat} (drains : stream.Drains reading count values) :
    ∃ steps, stream.observe reading (count + 1) = some steps ∧ steps.whole? = some values := by
  induction drains with
  | empty => exact ⟨[.finish], observe_empty reading 0, rfl⟩
  | @cons count head tail stream values forced _ later =>
    obtain ⟨steps, seen, whole⟩ := later
    have behind := Recipe.observe_succ_eq_some.mpr ⟨stream, forced, seen⟩
    refine ⟨.value head :: steps, by rw [observe_cons, behind, Option.map_some], ?_⟩
    rw [Steps.whole?, whole, Option.map_some]
  | @suspended count content stream values forced _ later =>
    obtain ⟨steps, seen, whole⟩ := later
    have behind := Recipe.observe_succ_eq_some.mpr ⟨stream, forced, seen⟩
    exact ⟨.tick :: steps, by rw [observe_suspended, behind, Option.map_some], whole⟩

/-- A merge of two streams that end comes to an end, with the values of both. Behind the first step
the sides change places, so what goes down is the sum of their lengths. -/
theorem Drains.mergeWith (fixed : Reading.Fixed routines base reading) {count more : Nat}
    (first : one.Drains reading count ones) (forced : reading.force recipe = some other)
    (second : other.Drains reading more others) :
    ∃ merged, one.mergeWith reading recipe = some merged ∧
      merged.Lists reading (ones ++ others) := by
  generalize lengths : count + more = total
  induction total using Nat.strong_induction_on generalizing one other recipe ones others count more
    with
  | _ total fewer =>
    have behind : ∀ {tail : Recipe α ε ρ} {stream : Unshared α ε ρ} {values : List α} {less : Nat},
        reading.force tail = some stream → stream.Drains reading less values →
          more + less < total → ∃ merged, reading.force (.merge recipe tail) = some merged ∧
            merged.Lists reading (others ++ values) := by
      intro tail stream values less forcedTail drains under
      obtain ⟨merged, merges, lists⟩ := fewer _ under second forcedTail drains rfl
      refine ⟨merged, ?_, lists⟩
      rw [fixed.force, ← merges]
      show (reading.force recipe).bind _ = _
      rw [forced, Option.bind_some]
    cases first with
    | empty => exact ⟨other, forced, more, others, second, .refl _⟩
    | @cons less head tail stream values forcedTail later =>
      obtain ⟨merged, made, steps, found, drains, same⟩ := behind forcedTail later (by omega)
      refine ⟨_, rfl, _, _, .cons made drains, .cons head ?_⟩
      exact same.trans List.perm_append_comm
    | @suspended less content stream values forcedTail later =>
      obtain ⟨merged, made, steps, found, drains, same⟩ := behind forcedTail later (by omega)
      exact ⟨_, rfl, _, _, .suspended made drains, same.trans List.perm_append_comm⟩

/-- A merge lists what both sides list. -/
theorem Lists.mergeWith (fixed : Reading.Fixed routines base reading)
    (first : one.Lists reading ones) (forced : reading.force recipe = some other)
    (second : other.Lists reading others) :
    ∃ merged, one.mergeWith reading recipe = some merged ∧
      merged.Lists reading (ones ++ others) := by
  obtain ⟨count, found, drains, same⟩ := first
  obtain ⟨more, found', drains', same'⟩ := second
  obtain ⟨merged, made, total, values, ended, order⟩ := drains.mergeWith fixed forced drains'
  exact ⟨merged, made, total, values, ended, order.trans (same.append same')⟩

/-- A flat map over a stream that ends comes to an end, with what the body makes of each value. -/
theorem Drains.mapcatWith (fixed : Reading.Fixed routines base reading)
    {body : α → Plan α ε ρ} {scope : List (Unshared α ε ρ)} {made : α → List α} {count : Nat}
    (drains : stream.Drains reading count values)
    (each : ∀ value ∈ values, ∃ one, (body value).read reading scope = some one ∧
      one.Lists reading (made value)) :
    ∃ mapped, (stream.mapcatWith reading body scope fun value =>
        (body value).read reading scope) = some mapped ∧
      mapped.Lists reading (values.flatMap made) := by
  have opened : ∀ {source : Recipe α ε ρ} {stream : Unshared α ε ρ},
      reading.force source = some stream →
        reading.force (.mapcat source body scope) =
          stream.mapcatWith reading body scope fun value => (body value).read reading scope := by
    intro source stream forced
    rw [fixed.force]
    show (reading.force source).bind _ = _
    rw [forced, Option.bind_some]
  induction drains with
  | empty => exact ⟨.empty, rfl, 0, [], .empty, .refl _⟩
  | @cons count head tail stream values forced _ later =>
    obtain ⟨rest, mapped, lists⟩ := later fun value member =>
      each value (List.mem_cons_of_mem _ member)
    have behind := (opened forced).trans mapped
    obtain ⟨one, applied, listed⟩ := each head (List.mem_cons_self ..)
    rw [List.flatMap_cons]
    by_cases ended : one = .empty
    · obtain ⟨_, _, drains, same⟩ := ended ▸ listed
      cases drains
      obtain ⟨count, found, drains, same'⟩ := lists
      refine ⟨_, mapcatWith_cons_empty (ended ▸ applied), _, _, .suspended behind drains, ?_⟩
      rw [List.nil_perm.mp same, List.nil_append]
      exact same'
    · obtain ⟨merged, merges, lists⟩ := listed.mergeWith fixed behind lists
      exact ⟨merged, (mapcatWith_cons applied ended).trans merges, lists⟩
  | @suspended count content stream values forced _ later =>
    obtain ⟨rest, mapped, count, found, drains, same⟩ := later each
    exact ⟨_, rfl, _, _, .suspended ((opened forced).trans mapped) drains, same⟩

/-- A flat map lists what the body makes of the values that its source lists. -/
theorem Lists.mapcatWith (fixed : Reading.Fixed routines base reading)
    {body : α → Plan α ε ρ} {scope : List (Unshared α ε ρ)} {made : α → List α}
    (lists : stream.Lists reading values)
    (each : ∀ value ∈ values, ∃ one, (body value).read reading scope = some one ∧
      one.Lists reading (made value)) :
    ∃ mapped, (stream.mapcatWith reading body scope fun value =>
        (body value).read reading scope) = some mapped ∧
      mapped.Lists reading (values.flatMap made) := by
  obtain ⟨count, found, drains, same⟩ := lists
  obtain ⟨mapped, read, total, order, ended, perm⟩ := drains.mapcatWith fixed fun value member =>
    each value (same.mem_iff.mp member)
  exact ⟨mapped, read, total, order, ended, perm.trans (same.flatMap_right made)⟩

end Unshared

namespace Stream

/-- A stream on a heap comes to its end by forcing so many cells one behind the other, with these
values on the way. -/
inductive Drains (handlers : Handlers α ε ρ) : Nat → Heap α ε ρ → Stream α → List α → Prop where
  /-- It is at its end. -/
  | empty {heap : Heap α ε ρ} : Drains handlers 0 heap empty []
  /-- It comes there behind a value. -/
  | cons {count : Nat} {heap after : Heap α ε ρ} {head : α} {tail : CellId} {stream : Stream α}
    {values : List α} (forced : handlers.force tail heap = .ok stream after)
    (later : Drains handlers count after stream values) :
    Drains handlers (count + 1) heap (cons head tail) (head :: values)
  /-- It comes there behind a tick. -/
  | suspended {count : Nat} {heap after : Heap α ε ρ} {cell : CellId} {stream : Stream α}
    {values : List α} (forced : handlers.force cell heap = .ok stream after)
    (later : Drains handlers count after stream values) :
    Drains handlers (count + 1) heap (suspended cell) values

variable {handlers : Handlers α ε ρ} {heap : Heap α ε ρ} {stream : Stream α} {bound count : Nat}
  {value : α} {values : List α}

/-- A stream whose steps are seen up to its end comes there. -/
theorem Drains.of_observe {steps : Steps α} {after : Heap α ε ρ}
    (seen : stream.observe handlers (count + 1) heap = .ok steps after)
    (whole : steps.whole? = some values) :
    ∃ less ≤ count, Drains handlers less heap stream values := by
  induction count generalizing stream heap steps values with
  | zero =>
    cases stream with
    | empty =>
      cases seen
      cases whole
      exact ⟨0, Nat.le_refl 0, .empty⟩
    | cons head tail =>
      cases seen
      exact nomatch whole
    | suspended cell =>
      cases seen
      exact nomatch whole
  | succ count shorter =>
    cases stream with
    | empty =>
      cases seen
      cases whole
      exact ⟨0, Nat.zero_le _, .empty⟩
    | cons head tail =>
      obtain ⟨rest, stream, between, rfl, forced, seen⟩ := observe_behind seen
      obtain ⟨others, whole', rfl⟩ := Option.map_eq_some_iff.mp whole
      obtain ⟨less, le, drains⟩ := shorter seen whole'
      exact ⟨less + 1, Nat.succ_le_succ le, .cons forced drains⟩
    | suspended cell =>
      obtain ⟨rest, stream, between, rfl, forced, seen⟩ := observe_behind seen
      obtain ⟨less, le, drains⟩ := shorter seen whole
      exact ⟨less + 1, Nat.succ_le_succ le, .suspended forced drains⟩

/-- Where no value is left a pull comes to the end. -/
theorem Drains.uncons?_nil (drains : Drains handlers count heap stream [])
    (enough : count ≤ bound) : ∃ after, stream.uncons? handlers bound heap = .ok none after := by
  generalize none : ([] : List α) = values at drains
  induction drains generalizing bound with
  | @empty heap => exact ⟨heap, by cases bound <;> rfl⟩
  | cons => exact nomatch none
  | @suspended count heap between cell stream values forced _ later =>
    obtain ⟨bound, rfl⟩ : ∃ rest, bound = rest + 1 := ⟨bound - 1, by omega⟩
    obtain ⟨after, pulled⟩ := later (Nat.le_of_succ_le_succ enough) none
    exact ⟨after, Run.bind_eq_ok.mpr ⟨stream, between, forced, pulled⟩⟩

/-- Where values are left a pull comes to the first of them and leaves the others. -/
theorem Drains.uncons?_cons (drains : Drains handlers count heap stream (value :: values))
    (enough : count ≤ bound) : ∃ rest after, ∃ less ≤ count,
      stream.uncons? handlers bound heap = .ok (some (value, rest)) after ∧
        Drains handlers less after rest values := by
  generalize all : value :: values = entries at drains
  induction drains generalizing bound with
  | empty => exact nomatch all
  | @cons count heap between head tail stream others forced drains _ =>
    cases all
    exact ⟨.suspended tail, heap, count + 1, Nat.le_refl _, by cases bound <;> rfl,
      .suspended forced drains⟩
  | @suspended count heap between cell stream others forced _ later =>
    obtain ⟨bound, rfl⟩ : ∃ rest, bound = rest + 1 := ⟨bound - 1, by omega⟩
    obtain ⟨rest, after, less, le, pulled, drains⟩ := later (Nat.le_of_succ_le_succ enough) all
    exact ⟨rest, after, less, by omega,
      Run.bind_eq_ok.mpr ⟨stream, between, forced, pulled⟩, drains⟩

namespace Iterator

/-- At the end every pull comes to the end again. -/
theorem pulls_empty (number : Nat) :
    pulls handlers bound number ⟨.empty⟩ heap = List.replicate number (.ok none) := by
  induction number with
  | zero => rfl
  | succ number again =>
    have ended : (⟨.empty⟩ : Iterator α).next handlers bound heap = ⟨.ok none, ⟨.empty⟩, heap⟩ := by
      cases bound <;> rfl
    rw [pulls, ended, List.replicate_succ]
    exact congrArg _ again

/-- The pulls from a stream that comes to its end come to its values one by one, and to the end
from then on. -/
theorem pulls_of_drains (drains : Drains handlers count heap stream values)
    (enough : count ≤ bound) (number : Nat) :
    pulls handlers bound number ⟨stream⟩ heap =
      (values.map fun value => .ok (some value)).take number ++
        List.replicate (number - values.length) (.ok none) := by
  induction number generalizing count heap stream values with
  | zero => simp [pulls]
  | succ number later =>
    cases values with
    | nil =>
      obtain ⟨after, pulled⟩ := drains.uncons?_nil enough
      have next : (⟨stream⟩ : Iterator α).next handlers bound heap =
          ⟨.ok none, ⟨.empty⟩, after⟩ := by
        simp only [Iterator.next, pulled]
      rw [pulls, next]
      exact congrArg _ (pulls_empty number)
    | cons value values =>
      obtain ⟨rest, after, less, le, pulled, drains⟩ := drains.uncons?_cons enough
      have next : (⟨stream⟩ : Iterator α).next handlers bound heap =
          ⟨.ok (some value), ⟨rest⟩, after⟩ := by
        simp only [Iterator.next, pulled]
      rw [pulls, next, later drains (by omega), List.map_cons, List.take_succ_cons,
        List.length_cons, Nat.add_sub_add_right, List.cons_append]

end Iterator

end Stream

end Relational
