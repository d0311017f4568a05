import Relational.Proofs.Stream.Merge

/-!
# Mapping

The steps of a flat map are the steps of its source with the steps made of each value put in its
place, each such sequence in turn with all that comes after the value. As for merges, the first
steps only depend on as many first steps of everything involved.
-/
namespace Relational

variable {α ε ρ : Type}

namespace Steps

variable {step : Step α} {steps ones others : Steps α}

/-- The first steps in turn only depend on the first steps of both sides. -/
theorem take_alternate_congr {count : Nat} {ones' others' : Steps α}
    (one : ones.take count = ones'.take count) (other : others.take count = others'.take count) :
    (alternate ones others).take count = (alternate ones' others').take count := by
  have here : count ≤ count := Nat.le_refl count
  rw [← take_alternate here here ones others, one, other, take_alternate here here]

/-- Where nothing is known of what a value becomes, nothing is known from there on. -/
theorem flatMap_value_nil (body : α → Steps α) {value : α} (made : body value = [])
    (steps : Steps α) : flatMap body (.value value :: steps) = [] := by
  rw [flatMap, made]
  exact alternate_nil _

/-- A value whose sequence ends at once becomes a tick. -/
theorem flatMap_value_finish (body : α → Steps α) {value : α} {rest : Steps α}
    (made : body value = .finish :: rest) (steps : Steps α) :
    flatMap body (.value value :: steps) = .tick :: flatMap body steps := by
  rw [flatMap, made]

/-- A value whose sequence does not end at once gives way to that sequence in turn with the
rest. -/
theorem flatMap_value (body : α → Steps α) {value : α} {first : Step α} {rest : Steps α}
    (made : body value = first :: rest) (open_ : first ≠ .finish) (steps : Steps α) :
    flatMap body (.value value :: steps) =
      first :: alternate (flatMap body steps) rest := by
  rw [flatMap, made]
  cases first with
  | finish => exact absurd rfl open_
  | tick => exact alternate_tick rest _
  | value other => exact alternate_value other rest _

/-- The first steps of a flat map only depend on as many first steps of the source and of what is
made of its values. -/
theorem take_flatMap {count here there : Nat} (leHere : count ≤ here) (leThere : count ≤ there)
    (body : α → Steps α) (steps : Steps α) :
    (flatMap (fun value => (body value).take here) (steps.take there)).take count =
      (flatMap body steps).take count := by
  induction count generalizing steps there with
  | zero => rw [List.take_zero, List.take_zero]
  | succ count shorter =>
    obtain ⟨there, rfl⟩ : ∃ rest, there = rest + 1 := ⟨there - 1, by omega⟩
    obtain ⟨here, rfl⟩ : ∃ rest, here = rest + 1 := ⟨here - 1, by omega⟩
    cases steps with
    | nil => rfl
    | cons step steps =>
      have behind := shorter (by omega) (show count ≤ there by omega) steps
      rw [List.take_succ_cons]
      cases step with
      | finish => rfl
      | tick => exact congrArg (Step.tick :: ·) behind
      | value value =>
        let short : α → Steps α := fun value => (body value).take (here + 1)
        rcases made : body value with _ | ⟨first, rest⟩
        · have fewer : short value = [] := by
            show (body value).take (here + 1) = []
            rw [made, List.take_nil]
          rw [flatMap_value_nil body made, flatMap_value_nil short fewer]
        · have fewer : short value = first :: rest.take here := by
            show (body value).take (here + 1) = _
            rw [made, List.take_succ_cons]
          by_cases ended : first = .finish
          · subst ended
            rw [flatMap_value_finish body made, flatMap_value_finish short fewer]
            exact congrArg (Step.tick :: ·) behind
          · have others : (rest.take here).take count = rest.take count := by
              rw [List.take_take, Nat.min_eq_left (by omega)]
            rw [flatMap_value body made ended, flatMap_value short fewer ended,
              List.take_succ_cons, List.take_succ_cons, take_alternate_congr behind others]

/-- Every step in turn is a step of one of the sides. -/
theorem mem_of_mem_alternate (member : step ∈ alternate ones others) :
    step ∈ ones ∨ step ∈ others := by
  induction ones, others using alternate.induct with
  | case1 others =>
    rw [alternate_nil] at member
    exact .inl member
  | case2 steps others =>
    rw [alternate_finish] at member
    exact .inr member
  | case3 steps others turned =>
    rw [alternate_tick] at member
    rcases List.mem_cons.mp member with rfl | member
    · exact .inl (List.mem_cons_self ..)
    · exact (turned member).symm.imp (List.mem_cons_of_mem _) id
  | case4 value steps others turned =>
    rw [alternate_value] at member
    rcases List.mem_cons.mp member with rfl | member
    · exact .inl (List.mem_cons_self ..)
    · exact (turned member).symm.imp (List.mem_cons_of_mem _) id

/-- Every value of a flat map is made of a value of the source. What comes of the steps behind the
first one comes of the whole. -/
theorem exists_of_mem_flatMap {body : α → Steps α} {value : α}
    (member : .value value ∈ flatMap body steps) :
    ∃ source, .value source ∈ steps ∧ .value value ∈ body source := by
  induction steps with
  | nil => exact nomatch member
  | cons step steps behind =>
    have later (member : .value value ∈ flatMap body steps) :
        ∃ source, .value source ∈ step :: steps ∧ .value value ∈ body source := by
      obtain ⟨source, there, made⟩ := behind member
      exact ⟨source, List.mem_cons_of_mem _ there, made⟩
    cases step with
    | finish => exact nomatch List.mem_singleton.mp member
    | tick =>
      rcases List.mem_cons.mp member with impossible | member
      · exact nomatch impossible
      · exact later member
    | value source =>
      rcases made : body source with _ | ⟨first, rest⟩
      · rw [flatMap_value_nil body made] at member
        exact nomatch member
      · by_cases ended : first = .finish
        · rw [flatMap_value_finish body (ended ▸ made)] at member
          rcases List.mem_cons.mp member with impossible | member
          · exact nomatch impossible
          · exact later member
        · rw [flatMap_value body made ended] at member
          rcases List.mem_cons.mp member with rfl | member
          · exact ⟨source, List.mem_cons_self .., by rw [made]; exact List.mem_cons_self ..⟩
          · rcases mem_of_mem_alternate member with member | member
            · exact later member
            · refine ⟨source, List.mem_cons_self .., ?_⟩
              rw [made]
              exact List.mem_cons_of_mem _ member

end Steps

section Observing

variable {routines : ρ → Plan α ε ρ} {base : Heap α ε ρ} {reading : Reading α ε ρ}

/-- Where the first side has not ended, its first step is known without the second side. -/
theorem Unshared.observe_mergeWith_cons (fixed : Reading.Fixed routines base reading)
    {first : Unshared α ε ρ} {second : Recipe α ε ρ} {count : Nat} {step : Step α}
    {ones others : Steps α} (open_ : step ≠ .finish)
    (one : first.observe reading (count + 1) = some (step :: ones))
    (other : second.observe reading count = some others) :
    ∃ merged, first.mergeWith reading second = some merged ∧
      merged.observe reading (count + 1) =
        some (step :: (Steps.alternate others ones).take count) := by
  have behind : ∀ {tail : Recipe α ε ρ} {rest : Steps α}, tail.observe reading count = some rest →
      (Recipe.merge second tail).observe reading count =
        some ((Steps.alternate others rest).take count) :=
    fun seen => Recipe.observe_merge fixed other seen
  cases first with
  | empty =>
    rw [observe_empty, Option.some.injEq, List.cons.injEq] at one
    exact absurd one.1.symm open_
  | cons head tail =>
    rw [observe_cons] at one
    obtain ⟨rest, seen, same⟩ := Option.map_eq_some_iff.mp one
    cases same
    refine ⟨_, rfl, ?_⟩
    rw [observe_cons, behind seen, Option.map_some]
  | suspended content =>
    rw [observe_suspended] at one
    obtain ⟨rest, seen, same⟩ := Option.map_eq_some_iff.mp one
    cases same
    refine ⟨_, rfl, ?_⟩
    rw [observe_suspended, behind seen, Option.map_some]

/-- A value whose stream has ended becomes a suspension of the rest. -/
theorem Unshared.mapcatWith_cons_empty {body : α → Plan α ε ρ} {scope : List (Unshared α ε ρ)}
    {apply : α → Option (Unshared α ε ρ)} {head : α} {tail : Recipe α ε ρ}
    (applied : apply head = some .empty) :
    (cons head tail).mapcatWith reading body scope apply =
      some (.suspended (.mapcat tail body scope)) := by
  show (apply head).bind _ = _
  rw [applied, Option.bind_some]

/-- A value whose stream has not ended is merged with the rest. -/
theorem Unshared.mapcatWith_cons {body : α → Plan α ε ρ} {scope : List (Unshared α ε ρ)}
    {apply : α → Option (Unshared α ε ρ)} {head : α} {tail : Recipe α ε ρ}
    {first : Unshared α ε ρ} (applied : apply head = some first) (going : first ≠ .empty) :
    (cons head tail).mapcatWith reading body scope apply =
      first.mergeWith reading (.mapcat tail body scope) := by
  show (apply head).bind _ = _
  rw [applied, Option.bind_some]
  cases first with
  | empty => exact absurd rfl going
  | cons => rfl
  | suspended => rfl

/-- What the first steps of a flat map are, if they are known behind its first step. -/
theorem Unshared.observe_mapcatWith_succ (fixed : Reading.Fixed routines base reading)
    {body : α → Plan α ε ρ} {scope : List (Unshared α ε ρ)}
    {apply : α → Option (Unshared α ε ρ)} {count : Nat} {made : α → Steps α}
    (behind : ∀ {source : Recipe α ε ρ} {steps : Steps α},
      source.observe reading count = some steps →
        (∀ value, .value value ∈ steps → ∃ stream, apply value = some stream ∧
          stream.observe reading (count + 1) = some (made value)) →
            (Recipe.mapcat source body scope).observe reading count =
              some ((Steps.flatMap made steps).take count))
    {source : Unshared α ε ρ} {steps : Steps α}
    (seen : source.observe reading (count + 1) = some steps)
    (applied : ∀ value, .value value ∈ steps → ∃ stream, apply value = some stream ∧
      stream.observe reading (count + 1) = some (made value)) :
    ∃ mapped, source.mapcatWith reading body scope apply = some mapped ∧
      mapped.observe reading (count + 1) =
        some ((Steps.flatMap made steps).take (count + 1)) := by
  cases source with
  | empty =>
    rw [observe_empty] at seen
    cases seen
    refine ⟨.empty, rfl, ?_⟩
    rw [observe_empty, Steps.flatMap, List.take_succ_cons, List.take_nil]
  | suspended content =>
    rw [observe_suspended] at seen
    obtain ⟨rest, seenRest, rfl⟩ := Option.map_eq_some_iff.mp seen
    refine ⟨_, rfl, ?_⟩
    rw [observe_suspended, behind seenRest fun value member =>
      applied value (List.mem_cons_of_mem _ member)]
    rfl
  | cons head tail =>
    rw [observe_cons] at seen
    obtain ⟨rest, seenRest, rfl⟩ := Option.map_eq_some_iff.mp seen
    have later := behind seenRest fun value member => applied value (List.mem_cons_of_mem _ member)
    obtain ⟨first, applied, shown⟩ := applied head (List.mem_cons_self ..)
    rcases observe_succ_cases shown with ⟨rfl, ended⟩ | ⟨step, steps, _, open_, same, _⟩
    · refine ⟨_, mapcatWith_cons_empty applied, ?_⟩
      rw [observe_suspended, later, Steps.flatMap_value_finish made ended]
      rfl
    · rw [same] at shown
      have going : first ≠ .empty := by
        rintro rfl
        rw [observe_empty, Option.some.injEq, List.cons.injEq] at shown
        exact open_ shown.1.symm
      obtain ⟨merged, merges, shown'⟩ := observe_mergeWith_cons fixed open_ shown later
      refine ⟨merged, (mapcatWith_cons applied going).trans merges, ?_⟩
      have fewer : ((Steps.flatMap made rest).take count).take count =
          (Steps.flatMap made rest).take count := by
        rw [List.take_take, Nat.min_self]
      rw [shown', Steps.flatMap_value made same open_, List.take_succ_cons,
        Steps.take_alternate_congr fewer rfl]

/-- What a flat map makes shows what its source shows, with what the body makes of each value in
the value's place. -/
theorem Recipe.observe_mapcat (fixed : Reading.Fixed routines base reading)
    {body : α → Plan α ε ρ} {scope : List (Unshared α ε ρ)} {count : Nat} {made : α → Steps α}
    {source : Recipe α ε ρ} {steps : Steps α} (seen : source.observe reading count = some steps)
    (applied : ∀ value, .value value ∈ steps →
      ∃ stream, (body value).read reading scope = some stream ∧
        stream.observe reading count = some (made value)) :
    (mapcat source body scope).observe reading count =
      some ((Steps.flatMap made steps).take count) := by
  induction count generalizing source steps made with
  | zero => rfl
  | succ count shorter =>
    obtain ⟨stream, forced, seen⟩ := observe_succ_eq_some.mp seen
    obtain ⟨mapped, made_, shown⟩ := Unshared.observe_mapcatWith_succ fixed (fun {source steps}
        seen applied => by
      have fewer := Steps.take_flatMap (Nat.le_refl count) (Nat.le_refl count) made steps
      rw [List.take_of_length_le (length_observe_le seen)] at fewer
      rw [← fewer]
      apply shorter seen
      intro value member
      obtain ⟨stream, applied, shown⟩ := applied value member
      exact ⟨stream, applied, Unshared.observe_take (Nat.le_succ count) shown⟩) seen applied
    refine observe_succ_eq_some.mpr ⟨mapped, ?_, shown⟩
    rw [fixed.force, ← made_]
    show (reading.force source).bind _ = _
    rw [forced, Option.bind_some]

/-- A flat map makes a stream that shows what its source shows, with what the body makes of each
value in the value's place. -/
theorem Unshared.observe_mapcatWith (fixed : Reading.Fixed routines base reading)
    {body : α → Plan α ε ρ} {scope : List (Unshared α ε ρ)} {count : Nat} {made : α → Steps α}
    {source : Unshared α ε ρ} {steps : Steps α}
    (seen : source.observe reading (count + 1) = some steps)
    (applied : ∀ value, .value value ∈ steps →
      ∃ stream, (body value).read reading scope = some stream ∧
        stream.observe reading (count + 1) = some (made value)) :
    ∃ mapped, (source.mapcatWith reading body scope fun value =>
        (body value).read reading scope) = some mapped ∧
      mapped.observe reading (count + 1) =
        some ((Steps.flatMap made steps).take (count + 1)) := by
  have known : (Recipe.known source).observe reading (count + 1) = some steps := by
    rw [observe_known fixed, seen]
  obtain ⟨mapped, forced, shown⟩ :=
    Recipe.observe_succ_eq_some.mp (Recipe.observe_mapcat fixed known applied)
  refine ⟨mapped, ?_, shown⟩
  rw [← forced, fixed.force]
  show _ = (reading.force (.known source)).bind _
  rw [fixed.force]
  rfl

/-- Where the first steps of everything involved can be seen, those of a flat map can be seen, and
each value among them is made of a value of the source. -/
theorem Unshared.exists_observe_mapcatWith (fixed : Reading.Fixed routines base reading)
    {body : α → Plan α ε ρ} {scope : List (Unshared α ε ρ)} {count : Nat}
    {source : Unshared α ε ρ} {steps : Steps α} {good : α → α → Prop}
    (seen : source.observe reading (count + 1) = some steps)
    (applied : ∀ value, .value value ∈ steps →
      ∃ stream, (body value).read reading scope = some stream ∧
        ∃ others, stream.observe reading (count + 1) = some others ∧
          ∀ answer, .value answer ∈ others → good value answer) :
    ∃ mapped, (source.mapcatWith reading body scope fun value =>
        (body value).read reading scope) = some mapped ∧
      ∃ shown, mapped.observe reading (count + 1) = some shown ∧
        ∀ answer, .value answer ∈ shown → ∃ value, .value value ∈ steps ∧ good value answer := by
  let made : α → Steps α := fun value =>
    (((body value).read reading scope).bind (Unshared.observe reading (count + 1))).getD []
  have found : ∀ value, .value value ∈ steps →
      (∃ stream, (body value).read reading scope = some stream ∧
        stream.observe reading (count + 1) = some (made value)) ∧
      ∀ answer, .value answer ∈ made value → good value answer := by
    intro value member
    obtain ⟨stream, read, others, seen, kept⟩ := applied value member
    have same : made value = others := by
      show (((body value).read reading scope).bind _).getD [] = others
      rw [read, Option.bind_some, seen, Option.getD_some]
    exact ⟨⟨stream, read, same ▸ seen⟩, same ▸ kept⟩
  obtain ⟨mapped, read, shown⟩ :=
    observe_mapcatWith fixed seen fun value member => (found value member).1
  refine ⟨mapped, read, _, shown, fun answer member => ?_⟩
  obtain ⟨value, there, member⟩ := Steps.exists_of_mem_flatMap (List.mem_of_mem_take member)
  exact ⟨value, there, (found value there).2 answer member⟩

end Observing

end Relational
