import Relational.Proofs.Stream.Laziness
import Relational.Proofs.Stream.Provenance

/-!
# Plans that cannot be told apart

Two plans are alike if what is read of them shows the same steps however far it is followed, also
where that ends in work which is given up. A merge with a side that has ended and a flat map that
puts each value in its own place are like the stream they are made of: they add no tick and take no
turn. Plans are compared under different scopes, so a plan that is like itself does not depend on
what it may refer to.
-/
namespace Relational

variable {α ε ρ : Type} {routines : ρ → Plan α ε ρ} {base : Heap α ε ρ} {reading : Reading α ε ρ}
  {count : Nat}

namespace Unshared

/-- Whatever is made agrees with itself. -/
theorem Agree.refl (made : Option (Unshared α ε ρ)) : Agree reading reading count made made :=
  fun _ _ => rfl

/-- What agrees with one thing agrees with what that agrees with. -/
theorem Agree.trans {one middle other : Option (Unshared α ε ρ)}
    (first : Agree reading reading count one middle)
    (second : Agree reading reading count middle other) :
    Agree reading reading count one other :=
  fun fewer less => (first fewer less).trans (second fewer less)

/-- Nothing has to agree about no steps. -/
theorem Agree.zero {one other : Option (Unshared α ε ρ)} : Agree reading reading 0 one other :=
  fun _ impossible => absurd impossible (Nat.not_lt_zero _)

/-- What is made of things that agree agrees, if what is made of streams that agree does. -/
theorem Agree.bind {one other : Option (Unshared α ε ρ)}
    {next next' : Unshared α ε ρ → Option (Unshared α ε ρ)}
    (agree : Agree reading reading count one other)
    (later : ∀ stream stream', Agree reading reading count (some stream) (some stream') →
      Agree reading reading count (next stream) (next' stream')) :
    Agree reading reading count (one.bind next) (other.bind next') := by
  cases count with
  | zero => exact .zero
  | succ count =>
    rcases agree.cases with ⟨made, made'⟩ | ⟨stream, stream', made, made', same⟩
    · rw [made, made']
      exact .none
    · rw [made, made']
      exact later stream stream' same.agree

/-- What agrees about any number of steps shows the same. -/
theorem Agree.observe_eq {one other : Option (Unshared α ε ρ)}
    (agree : ∀ count, Agree reading reading count one other) (count : Nat) :
    one.bind (observe reading count) = other.bind (observe reading count) := by
  cases count with
  | succ count => exact agree (count + 1) count (Nat.lt_succ_self count)
  | zero =>
    rcases (agree 1).cases with ⟨made, made'⟩ | ⟨stream, stream', made, made', _⟩
    · rw [made, made']
    · rw [made, made', Option.bind_some, Option.bind_some, observe_zero, observe_zero]

variable (fixed : Reading.Fixed routines base reading) {first rest : Recipe α ε ρ}

include fixed

/-- Behind an end there is the other side. -/
theorem force_merge_ended (ended : reading.force first = some .empty) :
    reading.force (.merge first rest) = reading.force rest := by
  rw [fixed.force_merge, ended]
  rfl

/-- A stream takes no turns with a side that has ended. -/
theorem agree_mergeWith_ended (ended : reading.force rest = some .empty)
    (stream : Unshared α ε ρ) :
    Agree reading reading count (stream.mergeWith reading rest) (some stream) := by
  cases count with
  | zero => exact .zero
  | succ count =>
    have behind (tail : Recipe α ε ρ) : Agree reading reading count
        (reading.force (.merge rest tail)) (reading.force tail) := by
      rw [force_merge_ended fixed ended]
      exact .refl _
    cases stream with
    | empty =>
      show Agree reading reading (count + 1) (reading.force rest) (some .empty)
      rw [ended]
      exact .refl _
    | cons head tail => exact (Match.cons head (behind tail)).agree
    | suspended content => exact (Match.suspended (behind content)).agree

/-- What is made takes no turns with a side that has ended. -/
theorem agree_bind_mergeWith_ended (ended : reading.force rest = some .empty)
    (made : Option (Unshared α ε ρ)) :
    Agree reading reading count (made.bind fun stream => stream.mergeWith reading rest) made := by
  cases made with
  | none => exact .none
  | some stream => exact agree_mergeWith_ended fixed ended stream

/-- A flat map that puts each value in its own place changes nothing. The stream of a value has
nothing behind it, so all turns go to what comes after it. -/
theorem agree_mapcat_unit (source : Recipe α ε ρ) (scope : List (Unshared α ε ρ)) :
    Agree reading reading count (reading.force (.mapcat source .unit scope))
      (reading.force source) := by
  induction count generalizing source with
  | zero => exact .zero
  | succ count further =>
    rw [fixed.force_mapcat]
    cases reading.force source with
    | none => exact .none
    | some stream =>
      cases stream with
      | empty => exact .refl _
      | suspended content => exact (Match.suspended (further content)).agree
      | cons head tail =>
        refine (Match.cons head (Agree.trans ?_ (further tail))).agree
        rw [fixed.force_merge]
        exact agree_bind_mergeWith_ended fixed (fixed.force (.known .empty)) _

end Unshared

open Unshared (Agree)

namespace Plan

/-- Two plans that take turns, where the second one is carried out first. -/
def before (first second : Plan α ε ρ) : Plan α ε ρ :=
  .share second (.merge (.computed fun _ => first) (.ref 0))

/-- What is read of plans that take turns. -/
theorem read_before (first second : Plan α ε ρ) (scope : List (Unshared α ε ρ)) :
    (first.before second).read reading scope =
      (second.read reading scope).bind fun shared =>
        (first.read reading (shared :: scope)).bind fun stream =>
          stream.mergeWith reading (.known shared) :=
  rfl

/-- What is read of two plans shows the same steps, whatever the plans may refer to. -/
def Alike (reading : Reading α ε ρ) (one other : Plan α ε ρ) : Prop :=
  ∀ count scope scope',
    Agree reading reading count (one.read reading scope) (other.read reading scope')

namespace Alike

variable {one other one' other' : Plan α ε ρ} {body body' : α → Plan α ε ρ}

/-- A plan of which the same is read under all scopes is like itself. -/
theorem of_eq {made : Option (Unshared α ε ρ)} (read : ∀ scope, one.read reading scope = made)
    (read' : ∀ scope, other.read reading scope = made) : Alike reading one other := by
  intro count scope scope'
  rw [read, read']
  exact .refl _

/-- The streams of one value are alike. -/
theorem unit (value : α) : Alike reading (.unit value) (.unit value) :=
  of_eq (fun _ => rfl) fun _ => rfl

/-- What is reported makes no difference. -/
theorem report (event : ε) (alike : Alike reading one other) :
    Alike reading (.report event one) (.report event other) := alike

/-- What is reported at once makes no difference. -/
theorem reportAll (events : List ε) (alike : Alike reading one other) :
    Alike reading (.reportAll events one) (.reportAll events other) := by
  induction events with
  | nil => exact alike
  | cons event events later => exact later.report event

variable (fixed : Reading.Fixed routines base reading)

include fixed

/-- Suspensions of one routine are alike, whatever the routine makes. -/
theorem suspend_call (routine : ρ) :
    Alike reading (.suspend (.call routine)) (.suspend (.call routine)) := by
  intro count scope scope'
  cases count with
  | zero => exact .zero
  | succ count =>
    refine (Unshared.Match.suspended ?_).agree
    rw [fixed.force, fixed.force]
    exact .refl _

/-- Flat maps of like plans with like bodies are alike. -/
theorem mapcat (same : Alike reading one other)
    (applied : ∀ value, Alike reading (body value) (body' value)) :
    Alike reading (.mapcat one body) (.mapcat other body') :=
  fun count scope scope' => (same count scope scope').bind fun _ _ agree =>
    agree.mapcatWith fixed fixed fun value => applied value count scope scope'

/-- A flat map that puts each value in its own place is like what it is made of. -/
theorem mapcat_unit (same : Alike reading one other) :
    Alike reading (.mapcat one .unit) other := by
  intro count scope scope'
  refine Agree.trans ?_ (same count scope scope')
  show Agree reading reading count ((one.read reading scope).bind fun stream =>
    stream.mapcatWith reading .unit scope fun value => some (.cons value (.known .empty))) _
  cases one.read reading scope with
  | none => exact .none
  | some stream =>
    have known : reading.force (.known stream) = some stream := fixed.force (.known stream)
    have unchanged : Agree reading reading count _ _ :=
      Unshared.agree_mapcat_unit fixed (.known stream) scope
    rw [fixed.force_mapcat, known] at unchanged
    exact unchanged

/-- Plans that take turns are like others if both are. -/
theorem before (first : Alike reading one one') (second : Alike reading other other') :
    Alike reading (one.before other) (one'.before other') := by
  intro count scope scope'
  rw [read_before, read_before]
  refine (second count scope scope').bind fun shared shared' agreeShared => ?_
  refine (first count (shared :: scope) (shared' :: scope')).bind fun _ _ agree => ?_
  refine agree.mergeWith fixed fixed ?_
  rw [fixed.force, fixed.force]
  exact agreeShared

/-- A plan that takes turns with the stream that has ended is like the plan alone. -/
theorem before_empty (same : Alike reading one other) :
    Alike reading (one.before .empty) other := by
  intro count scope scope'
  refine Agree.trans ?_ (same count (.empty :: scope) scope')
  exact Unshared.agree_bind_mergeWith_ended fixed (fixed.force (.known .empty)) _

/-- Before a plan the stream that has ended is not seen. -/
theorem empty_before (same : Alike reading one other) :
    Alike reading (empty.before one) other := by
  intro count scope scope'
  have forced : (fun shared => reading.force (.known shared)) = some :=
    funext fun shared => fixed.force (.known shared)
  have read : (empty.before one).read reading scope =
      (one.read reading scope).bind fun shared => reading.force (.known shared) := rfl
  rw [read, forced, Option.bind_fun_some]
  exact same count scope scope'

end Alike

/-- These first steps are read of a plan, whatever it may refer to. -/
def Reads (reading : Reading α ε ρ) (plan : Plan α ε ρ) (count : Nat) (steps : Steps α) : Prop :=
  ∀ scope, (plan.read reading scope).bind (Unshared.observe reading count) = some steps

namespace Reads

variable {plan one other : Plan α ε ρ} {steps ones others : Steps α}

/-- One beginning of so many steps is read. -/
theorem unique (first : plan.Reads reading count ones) (second : plan.Reads reading count others) :
    ones = others :=
  Option.some.inj ((first []).symm.trans (second []))

/-- What is read of a plan under one scope is read of the plans that are like it under all of
them. -/
theorem of_alike (alike : Alike reading one other) {scope : List (Unshared α ε ρ)}
    (seen : (one.read reading scope).bind (Unshared.observe reading count) = some steps) :
    other.Reads reading count steps :=
  fun scope' => (Agree.observe_eq (fun count => alike count scope scope') count).symm.trans seen

/-- The end is read of the empty plan. -/
theorem empty : (Plan.empty : Plan α ε ρ).Reads reading count ([.finish].take count) := by
  intro scope
  cases count with
  | zero => rfl
  | succ count =>
    rw [List.take_succ_cons, List.take_nil]
    exact Unshared.observe_empty reading count

/-- The value and the end are read of the stream of one value. -/
theorem unit (fixed : Reading.Fixed routines base reading) (value : α) :
    (Plan.unit value : Plan α ε ρ).Reads reading count ([.value value, .finish].take count) := by
  intro scope
  show (Unshared.cons value (.known .empty)).observe reading count = _
  cases count with
  | zero => exact Unshared.observe_zero reading _
  | succ count =>
    have behind : Unshared.empty.observe reading count = some (([.finish] : Steps α).take count) :=
      empty []
    rw [Unshared.observe_cons, Unshared.observe_known fixed, behind, List.take_succ_cons]
    rfl

/-- The steps in turn are read of plans that take turns. -/
theorem before (fixed : Reading.Fixed routines base reading)
    (first : one.Reads reading count ones) (second : other.Reads reading count others) :
    (one.before other).Reads reading count ((Steps.alternate ones others).take count) := by
  intro scope
  obtain ⟨shared, readOther, seenOther⟩ := Option.bind_eq_some_iff.mp (second scope)
  obtain ⟨stream, readOne, seenOne⟩ := Option.bind_eq_some_iff.mp (first (shared :: scope))
  obtain ⟨merged, made⟩ : ∃ merged, stream.mergeWith reading (.known shared) = some merged := by
    cases stream with
    | empty => exact ⟨shared, fixed.force (.known shared)⟩
    | cons | suspended => exact ⟨_, rfl⟩
  rw [read_before, readOther, Option.bind_some, readOne, Option.bind_some, made, Option.bind_some]
  exact Unshared.observe_of_mergeWith fixed made seenOne
    ((Unshared.observe_known fixed shared count).trans seenOther)

/-- What is read of a plan are the first steps of a sequence, if any number of them is. -/
theorem exists_sequence (followed : ∀ count, ∃ steps, plan.Reads reading count steps) :
    ∃ sequence : Steps.Sequence α, ∀ count, plan.Reads reading count (sequence.first count) := by
  obtain ⟨_, seen⟩ := followed 0
  obtain ⟨made, read, _⟩ := Option.bind_eq_some_iff.mp (seen [])
  have observed {count : Nat} {steps : Steps α} (seen : plan.Reads reading count steps) :
      made.observe reading count = some steps := by
    have here := seen []
    rwa [read, Option.bind_some] at here
  have live : made.Live reading := by
    intro count
    obtain ⟨steps, seen⟩ := followed count
    exact ⟨steps, observed seen⟩
  refine ⟨made.sequence live, fun count => ?_⟩
  obtain ⟨steps, seen⟩ := followed count
  rw [← (Unshared.observe_eq_some_iff live).mp (observed seen)]
  exact seen

end Reads

section Showing

variable {heap : Heap α ε ρ} {scope scope' : List (Stream α)} (closed : heap.Closed)
  (within : ∀ stream ∈ scope, stream.Within heap.cells.size) {plan : Plan α ε ρ}
  {steps others : Steps α}

include closed within

/-- On a closed heap a plan shows what is seen of what is read of it. -/
theorem shows_iff_observe :
    plan.Shows routines heap scope count steps ↔
      (plan.read (.full routines heap) (scope.map (Stream.unshared .cell))).bind
        (Unshared.observe (.full routines heap) count) = some steps :=
  (Stream.plan_shows_iff closed within).trans Option.bind_eq_some_iff.symm

/-- Like plans show the same steps, from any closed heap on. -/
theorem Alike.shows_iff {one other : Plan α ε ρ} (alike : Alike (.full routines heap) one other)
    (within' : ∀ stream ∈ scope', stream.Within heap.cells.size) :
    one.Shows routines heap scope count steps ↔ other.Shows routines heap scope' count steps := by
  rw [shows_iff_observe closed within, shows_iff_observe closed within',
    Agree.observe_eq fun count => alike count _ _]

/-- What is read of a plan is what it shows. -/
theorem Reads.shows_iff (reads : plan.Reads (.full routines heap) count steps) :
    plan.Shows routines heap scope count others ↔ others = steps := by
  rw [shows_iff_observe closed within, reads, Option.some.injEq]
  exact eq_comm

/-- What a plan shows that is like itself is read of it. -/
theorem Alike.reads (alike : Alike (.full routines heap) plan plan)
    (shows : plan.Shows routines heap scope count steps) :
    plan.Reads (.full routines heap) count steps :=
  .of_alike alike ((shows_iff_observe closed within).mp shows)

end Showing

end Plan

end Relational
