import Relational.Proofs.Stream.Emission

/-!
# Where emitted values come from

A value that a merge emits is emitted by one of its sides, and a value that a flat map emits is
emitted by a stream that the body makes of a value of the source, neither of them later than by
the merge or the flat map. This holds of what is emitted before some work is given up as well, so
it is shown by induction on when the value comes and not on what can be followed.
-/
namespace Relational.Unshared

variable {α ε ρ : Type} {routines : ρ → Plan α ε ρ} {base : Heap α ε ρ}

/-- A value comes after at most so many steps. -/
inductive EmitsWithin (reading : Reading α ε ρ) : Nat → Unshared α ε ρ → α → Prop where
  /-- It comes at once. -/
  | head {limit : Nat} {head : α} {tail : Recipe α ε ρ} :
    EmitsWithin reading limit (cons head tail) head
  /-- It comes after another value. -/
  | tail {limit : Nat} {head value : α} {tail : Recipe α ε ρ} {stream : Unshared α ε ρ}
    (forced : reading.force tail = some stream) (later : EmitsWithin reading limit stream value) :
    EmitsWithin reading (limit + 1) (cons head tail) value
  /-- It comes after a tick. -/
  | suspended {limit : Nat} {value : α} {content : Recipe α ε ρ} {stream : Unshared α ε ρ}
    (forced : reading.force content = some stream)
    (later : EmitsWithin reading limit stream value) :
    EmitsWithin reading (limit + 1) (suspended content) value

variable {reading : Reading α ε ρ} {limit : Nat} {stream first merged source mapped :
  Unshared α ε ρ} {value : α} {recipe : Recipe α ε ρ}

/-- What comes after at most so many steps comes after at most more of them. -/
theorem EmitsWithin.mono {more : Nat} (emitted : stream.EmitsWithin reading limit value)
    (le : limit ≤ more) : stream.EmitsWithin reading more value := by
  induction emitted generalizing more with
  | head => exact .head
  | tail forced _ later =>
    obtain ⟨more, rfl⟩ : ∃ rest, more = rest + 1 := ⟨more - 1, by omega⟩
    exact .tail forced (later (by omega))
  | suspended forced _ later =>
    obtain ⟨more, rfl⟩ : ∃ rest, more = rest + 1 := ⟨more - 1, by omega⟩
    exact .suspended forced (later (by omega))

/-- A value that is emitted comes after finitely many steps. -/
theorem Emits.exists_emitsWithin (emitted : stream.Emits reading value) :
    ∃ limit, stream.EmitsWithin reading limit value := by
  induction emitted with
  | head => exact ⟨0, .head⟩
  | tail forced _ later =>
    obtain ⟨limit, later⟩ := later
    exact ⟨limit + 1, .tail forced later⟩
  | suspended forced _ later =>
    obtain ⟨limit, later⟩ := later
    exact ⟨limit + 1, .suspended forced later⟩

/-- A value that comes after so many steps is emitted. -/
theorem EmitsWithin.emits (emitted : stream.EmitsWithin reading limit value) :
    stream.Emits reading value := by
  induction emitted with
  | head => exact .head
  | tail forced _ later => exact .tail forced later
  | suspended forced _ later => exact .suspended forced later

/-- A value that a merge emits whose first side has not ended is emitted by that side or, earlier,
by the second side. Behind its first step the first side has the second one before it. -/
theorem emitsWithin_of_mergeWith (fixed : Reading.Fixed routines base reading)
    (going : first ≠ empty) (made : first.mergeWith reading recipe = some merged)
    (emitted : merged.EmitsWithin reading limit value) :
    first.EmitsWithin reading limit value ∨
      ∃ second fewer, reading.force recipe = some second ∧ limit = fewer + 1 ∧
        second.EmitsWithin reading fewer value := by
  induction limit generalizing first recipe merged with
  | zero =>
    cases first with
    | empty => exact absurd rfl going
    | cons head tail =>
      cases made
      cases emitted
      exact .inl .head
    | suspended content =>
      cases made
      exact nomatch emitted
  | succ limit earlier =>
    have behind {tail : Recipe α ε ρ} {stream : Unshared α ε ρ}
        (forced : reading.force (.merge recipe tail) = some stream)
        (later : stream.EmitsWithin reading limit value) :
        (∃ rest, reading.force tail = some rest ∧ rest.EmitsWithin reading limit value) ∨
          ∃ second fewer, reading.force recipe = some second ∧ limit + 1 = fewer + 1 ∧
            second.EmitsWithin reading fewer value := by
      obtain ⟨second, forced, made⟩ := exists_of_force_merge fixed forced
      by_cases ended : second = empty
      · subst ended
        exact .inl ⟨stream, made, later⟩
      · rcases earlier ended made later with found | ⟨rest, fewer, forced', rfl, found⟩
        · exact .inr ⟨second, limit, forced, rfl, found⟩
        · exact .inl ⟨rest, forced', found.mono (Nat.le_succ fewer)⟩
    cases first with
    | empty => exact absurd rfl going
    | cons head tail =>
      cases made
      cases emitted with
      | head => exact .inl .head
      | tail forced later =>
        rcases behind forced later with ⟨rest, forced, found⟩ | found
        · exact .inl (.tail forced found)
        · exact .inr found
    | suspended content =>
      cases made
      cases emitted with
      | suspended forced later =>
        rcases behind forced later with ⟨rest, forced, found⟩ | found
        · exact .inl (.suspended forced found)
        · exact .inr found

/-- A value that a merge emits is emitted by one of its sides. -/
theorem exists_of_mergeWith (fixed : Reading.Fixed routines base reading)
    (made : first.mergeWith reading recipe = some merged)
    (emitted : merged.EmitsWithin reading limit value) :
    first.EmitsWithin reading limit value ∨
      ∃ second, reading.force recipe = some second ∧
        second.EmitsWithin reading limit value := by
  by_cases ended : first = empty
  · subst ended
    exact .inr ⟨merged, made, emitted⟩
  · rcases emitsWithin_of_mergeWith fixed ended made emitted with
      found | ⟨second, fewer, forced, rfl, found⟩
    · exact .inl found
    · exact .inr ⟨second, forced, found.mono (Nat.le_succ fewer)⟩

section Mapping

variable {body : α → Plan α ε ρ} {scope : List (Unshared α ε ρ)}

/-- A value that a flat map emits is emitted by what the body makes of a value that the source
emits. What is emitted behind the first step comes of a value behind it. -/
theorem exists_of_mapcatWith (fixed : Reading.Fixed routines base reading)
    (made : (source.mapcatWith reading body scope fun value =>
      (body value).read reading scope) = some mapped)
    (emitted : mapped.EmitsWithin reading limit value) :
    ∃ origin stream, source.EmitsWithin reading limit origin ∧
      (body origin).read reading scope = some stream ∧
        stream.EmitsWithin reading limit value := by
  induction limit using Nat.strong_induction_on generalizing source mapped with
  | _ limit earlier =>
    have behind {fewer : Nat} {tail : Recipe α ε ρ} {next : Unshared α ε ρ}
        (same : limit = fewer + 1) (forced : reading.force (.mapcat tail body scope) = some next)
        (later : next.EmitsWithin reading fewer value) :
        ∃ rest origin stream, reading.force tail = some rest ∧
          rest.EmitsWithin reading fewer origin ∧
            (body origin).read reading scope = some stream ∧
              stream.EmitsWithin reading limit value := by
      obtain ⟨rest, forced, made⟩ := exists_of_force_mapcat fixed forced
      obtain ⟨origin, stream, found, read, later⟩ := earlier fewer (by omega) made later
      exact ⟨rest, origin, stream, forced, found, read, later.mono (by omega)⟩
    cases source with
    | empty =>
      cases made
      exact nomatch emitted
    | suspended content =>
      cases made
      cases emitted with
      | suspended forced later =>
        obtain ⟨rest, origin, stream, forced, found, read, later⟩ := behind rfl forced later
        exact ⟨origin, stream, .suspended forced found, read, later⟩
    | cons head tail =>
      obtain ⟨first, read, _⟩ := Option.bind_eq_some_iff.mp made
      by_cases ended : first = empty
      · subst ended
        rw [mapcatWith_cons_empty read] at made
        cases made
        cases emitted with
        | suspended forced later =>
          obtain ⟨rest, origin, stream, forced, found, read, later⟩ := behind rfl forced later
          exact ⟨origin, stream, .tail forced found, read, later⟩
      · rw [mapcatWith_cons read ended] at made
        rcases emitsWithin_of_mergeWith fixed ended made emitted with
          found | ⟨second, fewer, forced, rfl, later⟩
        · exact ⟨head, first, .head, read, found⟩
        · obtain ⟨rest, origin, stream, forced, found, read, later⟩ := behind rfl forced later
          exact ⟨origin, stream, .tail forced found, read, later⟩

end Mapping

end Relational.Unshared
