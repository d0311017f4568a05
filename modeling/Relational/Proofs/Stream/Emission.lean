import Relational.Proofs.Stream.Mapping

/-!
# Emitted values

A value is emitted by a stream if it comes after finitely many steps. A merge that can be followed
as far as is asked for emits what either side emits, and such a flat map emits what the body makes
of any value that the source emits: no value is kept back by another one that never comes. Whatever
a merge or a flat map is made of can be followed where the merge or the flat map can.
-/
namespace Relational.Unshared

variable {α ε ρ : Type} {routines : ρ → Plan α ε ρ} {base : Heap α ε ρ}

/-- A value comes after finitely many steps. -/
inductive Emits (reading : Reading α ε ρ) : Unshared α ε ρ → α → Prop where
  /-- It comes at once. -/
  | head {head : α} {tail : Recipe α ε ρ} : Emits reading (cons head tail) head
  /-- It comes after another value. -/
  | tail {head value : α} {tail : Recipe α ε ρ} {stream : Unshared α ε ρ}
    (forced : reading.force tail = some stream) (later : Emits reading stream value) :
    Emits reading (cons head tail) value
  /-- It comes after a tick. -/
  | suspended {value : α} {content : Recipe α ε ρ} {stream : Unshared α ε ρ}
    (forced : reading.force content = some stream) (later : Emits reading stream value) :
    Emits reading (suspended content) value

/-- However many steps are asked for, they can be seen. -/
def Live (reading : Reading α ε ρ) (stream : Unshared α ε ρ) : Prop :=
  ∀ count, ∃ steps, stream.observe reading count = some steps

variable {reading : Reading α ε ρ} {stream : Unshared α ε ρ} {value : α}

/-- A value is emitted if it is seen among the first steps. -/
theorem Emits.of_observe {count : Nat} {steps : Steps α}
    (observed : stream.observe reading count = some steps) (member : .value value ∈ steps) :
    stream.Emits reading value := by
  induction count generalizing stream steps with
  | zero =>
    rw [observe_zero] at observed
    cases observed
    exact nomatch member
  | succ count later =>
    have behind : ∀ {recipe : Recipe α ε ρ} {rest : Steps α},
        recipe.observe reading count = some rest → .value value ∈ rest →
          ∃ made, reading.force recipe = some made ∧ made.Emits reading value := by
      intro recipe rest seen member
      cases count with
      | zero =>
        cases seen
        exact nomatch member
      | succ count =>
        obtain ⟨made, forced, seen⟩ := Recipe.observe_succ_eq_some.mp seen
        exact ⟨made, forced, later seen member⟩
    cases stream with
    | empty =>
      rw [observe_empty] at observed
      cases observed
      exact nomatch List.mem_singleton.mp member
    | cons head tail =>
      rw [observe_cons] at observed
      obtain ⟨rest, seen, rfl⟩ := Option.map_eq_some_iff.mp observed
      rcases List.mem_cons.mp member with same | member
      · cases same
        exact .head
      · obtain ⟨made, forced, emitted⟩ := behind seen member
        exact .tail forced emitted
    | suspended content =>
      rw [observe_suspended] at observed
      obtain ⟨rest, seen, rfl⟩ := Option.map_eq_some_iff.mp observed
      rcases List.mem_cons.mp member with impossible | member
      · exact nomatch impossible
      · obtain ⟨made, forced, emitted⟩ := behind seen member
        exact .suspended forced emitted

/-- A value that is emitted is seen among the first steps. -/
theorem Emits.exists_observe (emitted : stream.Emits reading value) :
    ∃ count steps, stream.observe reading (count + 1) = some steps ∧ .value value ∈ steps := by
  induction emitted with
  | @head head tail =>
    refine ⟨0, [.value head], ?_, List.mem_singleton.mpr rfl⟩
    rw [observe_cons]
    rfl
  | @tail head value tail stream forced _ later =>
    obtain ⟨count, steps, seen, member⟩ := later
    refine ⟨count + 1, .value head :: steps, ?_, List.mem_cons_of_mem _ member⟩
    rw [observe_cons, Recipe.observe_succ_eq_some.mpr ⟨stream, forced, seen⟩, Option.map_some]
  | @suspended value content stream forced _ later =>
    obtain ⟨count, steps, seen, member⟩ := later
    refine ⟨count + 1, .tick :: steps, ?_, List.mem_cons_of_mem _ member⟩
    rw [observe_suspended, Recipe.observe_succ_eq_some.mpr ⟨stream, forced, seen⟩,
      Option.map_some]

/-- A stream whose first steps can be seen, all but none of them, can be followed. -/
theorem Live.of_succ (seen : ∀ count, ∃ steps, stream.observe reading (count + 1) = some steps) :
    stream.Live reading := by
  intro count
  cases count with
  | zero => exact ⟨[], observe_zero reading stream⟩
  | succ count => exact seen count

/-- A stream without a step can be followed. -/
theorem live_empty : (empty : Unshared α ε ρ).Live reading :=
  .of_succ fun count => ⟨_, observe_empty reading count⟩

/-- What is seen of the stream that a recipe makes is seen of the recipe. -/
theorem observe_of_force {recipe : Recipe α ε ρ} (forced : reading.force recipe = some stream)
    {count : Nat} {steps : Steps α} (seen : stream.observe reading count = some steps) :
    recipe.observe reading count = some steps := by
  cases count with
  | zero =>
    rw [observe_zero] at seen
    exact seen
  | succ count => exact Recipe.observe_succ_eq_some.mpr ⟨stream, forced, seen⟩

/-- A recipe of which all first steps can be seen makes a stream that can be followed. -/
theorem Live.of_recipe {recipe : Recipe α ε ρ}
    (seen : ∀ count, ∃ steps, recipe.observe reading count = some steps) :
    ∃ stream, reading.force recipe = some stream ∧ stream.Live reading := by
  obtain ⟨_, first⟩ := seen 1
  obtain ⟨stream, forced, _⟩ := Recipe.observe_succ_eq_some.mp first
  refine ⟨stream, forced, .of_succ fun count => ?_⟩
  obtain ⟨steps, more⟩ := seen (count + 1)
  obtain ⟨other, forced', more⟩ := Recipe.observe_succ_eq_some.mp more
  rw [forced, Option.some.injEq] at forced'
  exact ⟨steps, forced' ▸ more⟩

/-- Behind a value there is a stream that can be followed. -/
theorem Live.tail {head : α} {tail : Recipe α ε ρ} (live : (cons head tail).Live reading) :
    ∃ stream, reading.force tail = some stream ∧ stream.Live reading := by
  apply Live.of_recipe
  intro count
  obtain ⟨steps, seen⟩ := live (count + 1)
  rw [observe_cons] at seen
  obtain ⟨rest, seen, _⟩ := Option.map_eq_some_iff.mp seen
  exact ⟨rest, seen⟩

/-- Behind a tick there is a stream that can be followed. -/
theorem Live.content {content : Recipe α ε ρ} (live : (suspended content).Live reading) :
    ∃ stream, reading.force content = some stream ∧ stream.Live reading := by
  apply Live.of_recipe
  intro count
  obtain ⟨steps, seen⟩ := live (count + 1)
  rw [observe_suspended] at seen
  obtain ⟨rest, seen, _⟩ := Option.map_eq_some_iff.mp seen
  exact ⟨rest, seen⟩

/-- What is seen of a live stream is the beginning of its sequence, and a value that it emits is a
step of that sequence. -/
theorem Emits.exists_step? (live : stream.Live reading) (emitted : stream.Emits reading value) :
    ∃ index, (stream.sequence live).step? index = some (.value value) := by
  obtain ⟨count, steps, seen, member⟩ := emitted.exists_observe
  rw [observe_eq_some_iff live] at seen
  obtain ⟨index, there⟩ := List.getElem?_of_mem member
  exact ⟨index, (stream.sequence live).step?_of_first (seen ▸ there)⟩

section Merging

variable {first second merged : Unshared α ε ρ} {recipe : Recipe α ε ρ}

/-- What a merge of two recipes makes is a merge of what they make. -/
theorem exists_of_force_merge (fixed : Reading.Fixed routines base reading)
    {rest : Recipe α ε ρ} (made : reading.force (.merge recipe rest) = some merged) :
    ∃ second, reading.force recipe = some second ∧
      second.mergeWith reading rest = some merged := by
  rw [fixed.force] at made
  exact Option.bind_eq_some_iff.mp made

/-- Behind the first step of a merge that can be followed its sides have changed places, and the
side that took the step is seen one step farther than what is behind it. -/
theorem Live.behind_mergeWith (fixed : Reading.Fixed routines base reading)
    (live : merged.Live reading) (made : first.mergeWith reading recipe = some merged)
    (going : first ≠ empty) :
    ∃ rest second behind, reading.force recipe = some second ∧
      second.mergeWith reading rest = some behind ∧ behind.Live reading ∧
        ∀ {count steps}, rest.observe reading count = some steps →
          ∃ more, first.observe reading (count + 1) = some more := by
  cases first with
  | empty => exact absurd rfl going
  | cons head tail =>
    cases made
    obtain ⟨behind, forced, live⟩ := live.tail
    obtain ⟨second, there, made⟩ := exists_of_force_merge fixed forced
    refine ⟨tail, second, behind, there, made, live, fun {count steps} seen => ?_⟩
    exact ⟨.value head :: steps, by rw [observe_cons, seen, Option.map_some]⟩
  | suspended content =>
    cases made
    obtain ⟨behind, forced, live⟩ := live.content
    obtain ⟨second, there, made⟩ := exists_of_force_merge fixed forced
    refine ⟨content, second, behind, there, made, live, fun {count steps} seen => ?_⟩
    exact ⟨.tick :: steps, by rw [observe_suspended, seen, Option.map_some]⟩

/-- As many steps as are asked for can be seen of the first side of a merge that can be followed:
its rest comes first again after one step of the second side, two steps later. -/
theorem Live.exists_observe_first (fixed : Reading.Fixed routines base reading)
    (live : merged.Live reading) (made : first.mergeWith reading recipe = some merged)
    (count : Nat) : ∃ steps, first.observe reading count = some steps := by
  induction count using Nat.strong_induction_on generalizing first recipe merged with
  | _ count fewer =>
    cases count with
    | zero => exact ⟨[], observe_zero reading first⟩
    | succ count =>
      by_cases ended : first = empty
      · exact ⟨_, ended ▸ observe_empty reading count⟩
      obtain ⟨rest, second, behind, _, made, live, further⟩ :=
        live.behind_mergeWith fixed made ended
      by_cases ended' : second = empty
      · subst ended'
        obtain ⟨steps, seen⟩ := live count
        exact further (observe_of_force made seen)
      · obtain ⟨_, third, last, forced, made, live, _⟩ := live.behind_mergeWith fixed made ended'
        obtain ⟨steps, seen⟩ := fewer count (Nat.lt_succ_self count) live made
        exact further (observe_of_force forced seen)

/-- Both sides of a merge that can be followed can be followed. -/
theorem Live.of_mergeWith (fixed : Reading.Fixed routines base reading)
    (live : merged.Live reading) (made : first.mergeWith reading recipe = some merged) :
    first.Live reading ∧
      ∃ second, reading.force recipe = some second ∧ second.Live reading := by
  refine ⟨live.exists_observe_first fixed made, ?_⟩
  by_cases ended : first = empty
  · subst ended
    exact ⟨merged, made, live⟩
  · obtain ⟨_, second, _, forced, made, live, _⟩ := live.behind_mergeWith fixed made ended
    exact ⟨second, forced, live.exists_observe_first fixed made⟩

/-- A merge that can be followed emits what its sides emit: a value of either side stands at its
place in the alternation of both, and far enough on that place is seen. -/
theorem Live.emits_mergeWith (fixed : Reading.Fixed routines base reading)
    (live : merged.Live reading) (made : first.mergeWith reading recipe = some merged)
    (forced : reading.force recipe = some second) :
    merged.Emits reading value ↔ first.Emits reading value ∨ second.Emits reading value := by
  obtain ⟨liveFirst, other, forced', liveSecond⟩ := live.of_mergeWith fixed made
  cases forced.symm.trans forced'
  have open_ : (.value value : Step α) ≠ .finish := fun impossible => nomatch impossible
  have seen : ∀ count, merged.observe reading count =
      some ((Steps.alternate ((first.sequence liveFirst).first count)
        ((second.sequence liveSecond).first count)).take count) := by
    intro count
    have one :=
      (observe_eq_some_iff liveFirst).mpr (Eq.refl ((first.sequence liveFirst).first count))
    have other :=
      (observe_eq_some_iff liveSecond).mpr (Eq.refl ((second.sequence liveSecond).first count))
    exact observe_of_mergeWith fixed made one (observe_of_force forced other)
  have placed : ∀ {place : Nat}, (Steps.alternate ((first.sequence liveFirst).first (place + 1))
      ((second.sequence liveSecond).first (place + 1)))[place]? = some (.value value) →
        merged.Emits reading value := by
    intro place there
    have shown := (List.getElem?_take_of_lt (Nat.lt_succ_self place)).trans there
    exact .of_observe (seen (place + 1)) (List.mem_of_getElem? shown)
  constructor
  · intro emitted
    obtain ⟨count, steps, shown, member⟩ := emitted.exists_observe
    rw [seen, Option.some.injEq] at shown
    rw [← shown] at member
    rcases Steps.mem_of_mem_alternate (List.mem_of_mem_take member) with member | member
    · exact .inl (.of_observe ((observe_eq_some_iff liveFirst).mpr rfl) member)
    · exact .inr (.of_observe ((observe_eq_some_iff liveSecond).mpr rfl) member)
  · rintro (emitted | emitted)
    · obtain ⟨index, there⟩ := emitted.exists_step? liveFirst
      have far : index ≤ (second.sequence liveSecond).firstPlace index := Nat.le_add_right _ _
      exact placed (Steps.Sequence.getElem?_firstPlace there open_ (Nat.lt_succ_of_le far))
    · obtain ⟨index, there⟩ := emitted.exists_step? liveSecond
      have far : index ≤ (first.sequence liveFirst).secondPlace index := Nat.le_add_right _ _
      exact placed (Steps.Sequence.getElem?_secondPlace there open_ (Nat.lt_succ_of_le far))

end Merging

section Mapping

variable {body : α → Plan α ε ρ} {scope : List (Unshared α ε ρ)} {source mapped : Unshared α ε ρ}

/-- A flat map of a stream that can be followed can be followed, where the body makes streams that
can be followed of the values that are emitted. -/
theorem exists_mapcatWith (fixed : Reading.Fixed routines base reading)
    (live : source.Live reading) (applied : ∀ value, source.Emits reading value →
      ∃ made, (body value).read reading scope = some made ∧ made.Live reading) :
    ∃ mapped, (source.mapcatWith reading body scope fun value =>
      (body value).read reading scope) = some mapped ∧ mapped.Live reading := by
  have seen : ∀ count, ∃ mapped, (source.mapcatWith reading body scope fun value =>
      (body value).read reading scope) = some mapped ∧
        ∃ steps, mapped.observe reading (count + 1) = some steps := by
    intro count
    obtain ⟨steps, observed⟩ := live (count + 1)
    have found : ∀ value, .value value ∈ steps →
        ∃ stream, (body value).read reading scope = some stream ∧
          ∃ others, stream.observe reading (count + 1) = some others ∧
            ∀ answer, .value answer ∈ others → True := by
      intro value member
      obtain ⟨stream, read, followed⟩ := applied value (.of_observe observed member)
      obtain ⟨others, seen⟩ := followed (count + 1)
      exact ⟨stream, read, others, seen, fun _ _ => trivial⟩
    obtain ⟨mapped, made, shown, seen, _⟩ := exists_observe_mapcatWith fixed observed found
    exact ⟨mapped, made, shown, seen⟩
  obtain ⟨mapped, made, _⟩ := seen 0
  refine ⟨mapped, made, .of_succ fun count => ?_⟩
  obtain ⟨other, made', seen⟩ := seen count
  rw [made, Option.some.injEq] at made'
  exact made' ▸ seen

/-- What a flat map of a recipe makes is the flat map of what the recipe makes. -/
theorem exists_of_force_mapcat (fixed : Reading.Fixed routines base reading)
    {recipe : Recipe α ε ρ}
    (made : reading.force (.mapcat recipe body scope) = some mapped) :
    ∃ source, reading.force recipe = some source ∧
      (source.mapcatWith reading body scope fun value => (body value).read reading scope) =
        some mapped := by
  rw [fixed.force] at made
  exact Option.bind_eq_some_iff.mp made

/-- Behind the first step of the source of a flat map that can be followed there is a flat map again
that can be followed, and what the body makes of a first value can be followed as well. -/
theorem Live.behind_mapcatWith (fixed : Reading.Fixed routines base reading)
    (live : mapped.Live reading)
    (made : (source.mapcatWith reading body scope fun value =>
      (body value).read reading scope) = some mapped) :
    match source with
    | empty => True
    | cons head tail =>
      (∃ first, (body head).read reading scope = some first ∧ first.Live reading) ∧
        ∃ behind, reading.force (.mapcat tail body scope) = some behind ∧ behind.Live reading
    | suspended content =>
      ∃ behind, reading.force (.mapcat content body scope) = some behind ∧
        behind.Live reading := by
  cases source with
  | empty => trivial
  | suspended content =>
    cases made
    exact live.content
  | cons head tail =>
    obtain ⟨first, read, _⟩ := Option.bind_eq_some_iff.mp made
    by_cases ended : first = empty
    · subst ended
      rw [mapcatWith_cons_empty read] at made
      cases made
      exact ⟨⟨empty, read, live_empty⟩, live.content⟩
    · rw [mapcatWith_cons read ended] at made
      obtain ⟨liveFirst, behind⟩ := live.of_mergeWith fixed made
      exact ⟨⟨first, read, liveFirst⟩, behind⟩

/-- The source of a flat map that can be followed can be followed, and so can what the body makes of
the values that the source emits. -/
theorem Live.of_mapcatWith (fixed : Reading.Fixed routines base reading)
    (live : mapped.Live reading)
    (made : (source.mapcatWith reading body scope fun value =>
      (body value).read reading scope) = some mapped) :
    source.Live reading ∧ ∀ value, source.Emits reading value →
      ∃ stream, (body value).read reading scope = some stream ∧ stream.Live reading := by
  constructor
  · intro count
    induction count generalizing source mapped with
    | zero => exact ⟨[], observe_zero reading source⟩
    | succ count fewer =>
      have behind := live.behind_mapcatWith fixed made
      cases source with
      | empty => exact live_empty (count + 1)
      | cons head tail =>
        obtain ⟨_, rest, forced, live⟩ := behind
        obtain ⟨next, forced, made⟩ := exists_of_force_mapcat fixed forced
        obtain ⟨steps, seen⟩ := fewer live made
        refine ⟨.value head :: steps, ?_⟩
        rw [observe_cons, observe_of_force forced seen, Option.map_some]
      | suspended content =>
        obtain ⟨rest, forced, live⟩ := behind
        obtain ⟨next, forced, made⟩ := exists_of_force_mapcat fixed forced
        obtain ⟨steps, seen⟩ := fewer live made
        refine ⟨.tick :: steps, ?_⟩
        rw [observe_suspended, observe_of_force forced seen, Option.map_some]
  · intro value emitted
    induction emitted generalizing mapped with
    | head => exact (live.behind_mapcatWith fixed made).1
    | tail there _ later =>
      obtain ⟨_, rest, forced, live⟩ := live.behind_mapcatWith fixed made
      obtain ⟨next, forced, made⟩ := exists_of_force_mapcat fixed forced
      cases there.symm.trans forced
      exact later live made
    | suspended there _ later =>
      obtain ⟨rest, forced, live⟩ := live.behind_mapcatWith fixed made
      obtain ⟨next, forced, made⟩ := exists_of_force_mapcat fixed forced
      cases there.symm.trans forced
      exact later live made

/-- A flat map that can be followed emits what the body makes of a value that the source emits. -/
theorem Live.emits_mapcatWith (fixed : Reading.Fixed routines base reading) {origin : α}
    {stream : Unshared α ε ρ} (live : mapped.Live reading)
    (made : (source.mapcatWith reading body scope fun value =>
      (body value).read reading scope) = some mapped)
    (emitted : source.Emits reading origin) (read : (body origin).read reading scope = some stream)
    (later : stream.Emits reading value) : mapped.Emits reading value := by
  induction emitted generalizing mapped with
  | @head head tail =>
    have going : stream ≠ .empty := by
      rintro rfl
      exact nomatch later
    obtain ⟨_, behind, forced, _⟩ := live.behind_mapcatWith fixed made
    rw [mapcatWith_cons read going] at made
    exact (live.emits_mergeWith fixed made forced).mpr (.inl later)
  | @tail head origin tail next there _ further =>
    obtain ⟨⟨first, readFirst, _⟩, behind, forced, liveBehind⟩ :=
      live.behind_mapcatWith fixed made
    obtain ⟨rest, forced', madeBehind⟩ := exists_of_force_mapcat fixed forced
    cases there.symm.trans forced'
    have emittedBehind := further liveBehind madeBehind read
    by_cases ended : first = .empty
    · subst ended
      rw [mapcatWith_cons_empty readFirst, Option.some.injEq] at made
      rw [← made]
      exact .suspended forced emittedBehind
    · rw [mapcatWith_cons readFirst ended] at made
      exact (live.emits_mergeWith fixed made forced).mpr (.inr emittedBehind)
  | @suspended origin content next there _ further =>
    obtain ⟨behind, forced, liveBehind⟩ := live.behind_mapcatWith fixed made
    obtain ⟨rest, forced', madeBehind⟩ := exists_of_force_mapcat fixed forced
    cases there.symm.trans forced'
    have emittedBehind := further liveBehind madeBehind read
    cases made
    exact .suspended forced emittedBehind

end Mapping

end Relational.Unshared
