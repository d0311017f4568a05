import Mathlib.Order.Monotone.Basic
import Relational.Stream.Steps

/-!
# Alternating sequences

Where the steps of two sequences go when they take turns. A step goes to a place that depends on
its own place and on how far the other sequence has come by then, so every step of either side
has a place of its own, at most twice as far on, and nothing else stands anywhere.
-/
namespace Relational.Steps

variable {α : Type}

/-- How many steps there are before the end. -/
def moves : Steps α → Nat
  | [] => 0
  | .finish :: _ => 0
  | .tick :: steps => moves steps + 1
  | .value _ :: steps => moves steps + 1

/-- So many steps are known, or the end is. -/
def Reaches (count : Nat) (steps : Steps α) : Prop := count ≤ steps.moves ∨ .finish ∈ steps

/-- Behind the end there is nothing. -/
def Proper (steps : Steps α) : Prop :=
  ∀ {index : Nat} {step : Step α}, steps[index]? = some step → step ≠ .finish →
    index < steps.moves

section Lists

variable {step : Step α} {steps ones others : Steps α}

@[simp]
theorem moves_nil : moves ([] : Steps α) = 0 := rfl

@[simp]
theorem moves_finish (steps : Steps α) : moves (.finish :: steps) = 0 := rfl

/-- A step that is not the end counts. -/
theorem moves_cons (open_ : step ≠ .finish) (steps : Steps α) :
    moves (step :: steps) = moves steps + 1 := by
  cases step with
  | value value => rfl
  | tick => rfl
  | finish => exact absurd rfl open_

/-- The steps before the end are among the steps. -/
theorem moves_le_length (steps : Steps α) : steps.moves ≤ steps.length := by
  induction steps with
  | nil => exact Nat.le_refl 0
  | cons step steps le =>
    by_cases open_ : step = .finish
    · rw [open_, moves_finish]
      exact Nat.zero_le _
    · rw [moves_cons open_, List.length_cons]
      omega

/-- Fewer of the first steps have fewer before the end. -/
theorem moves_take (count : Nat) (steps : Steps α) :
    moves (steps.take count) = min count steps.moves := by
  induction steps generalizing count with
  | nil => simp
  | cons step steps fewer =>
    cases count with
    | zero => simp
    | succ count =>
      rw [List.take_succ_cons]
      by_cases open_ : step = .finish
      · rw [open_, moves_finish, moves_finish]
        exact (Nat.min_zero _).symm
      · rw [moves_cons open_, moves_cons open_, fewer]
        omega

/-- What is known behind a step. -/
theorem Reaches.tail {count : Nat} (open_ : step ≠ .finish)
    (reaches : Reaches (count + 1) (step :: steps)) : Reaches count steps := by
  rcases reaches with far | ended
  · rw [moves_cons open_] at far
    exact .inl (by omega)
  · rcases List.mem_cons.mp ended with same | ended
    · exact absurd same.symm open_
    · exact .inr ended

/-- Behind a step, too, there is nothing behind the end. -/
theorem Proper.tail (open_ : step ≠ .finish) (proper : Proper (step :: steps)) :
    Proper steps := by
  intro index other there still
  have before := proper (List.getElem?_cons_succ.trans there) still
  rw [moves_cons open_] at before
  omega

@[simp]
theorem alternate_nil (others : Steps α) : alternate [] others = [] := by
  rw [alternate]

@[simp]
theorem alternate_finish (steps others : Steps α) :
    alternate (.finish :: steps) others = others := by
  rw [alternate]

@[simp]
theorem alternate_value (value : α) (steps others : Steps α) :
    alternate (.value value :: steps) others = .value value :: alternate others steps := by
  rw [alternate]

@[simp]
theorem alternate_tick (steps others : Steps α) :
    alternate (.tick :: steps) others = .tick :: alternate others steps := by
  rw [alternate]

/-- After a step that is not the end it is the other side's turn. -/
theorem alternate_cons (open_ : step ≠ .finish) (steps others : Steps α) :
    alternate (step :: steps) others = step :: alternate others steps := by
  cases step with
  | value value => exact alternate_value value steps others
  | tick => exact alternate_tick steps others
  | finish => exact absurd rfl open_

/-- The first steps in turn only depend on as many first steps of both sides. -/
theorem take_alternate {count here there : Nat} (leHere : count ≤ here) (leThere : count ≤ there)
    (ones others : Steps α) :
    (alternate (ones.take here) (others.take there)).take count =
      (alternate ones others).take count := by
  induction count generalizing ones others here there with
  | zero => rw [List.take_zero, List.take_zero]
  | succ count shorter =>
    obtain ⟨here, rfl⟩ : ∃ rest, here = rest + 1 := ⟨here - 1, by omega⟩
    cases ones with
    | nil => rw [List.take_nil, alternate_nil, alternate_nil]
    | cons step ones =>
      rw [List.take_succ_cons]
      by_cases open_ : step = .finish
      · rw [open_, alternate_finish, alternate_finish, List.take_take, Nat.min_eq_left leThere]
      · rw [alternate_cons open_, alternate_cons open_, List.take_succ_cons, List.take_succ_cons,
          shorter (by omega) (by omega)]

/-- Where a step of the second side goes, if this is known for the first side. -/
theorem getElem?_alternate_right_of_left {index : Nat}
    (left : ∀ {ones others : Steps α}, index < ones.moves → Reaches index others →
      (alternate ones others)[index + min index others.moves]? = ones[index]?)
    (within : index < others.moves) (reaches : Reaches (index + 1) ones) :
    (alternate ones others)[index + min (index + 1) ones.moves]? = others[index]? := by
  cases ones with
  | nil =>
    rcases reaches with far | ended
    · exact absurd far (Nat.not_succ_le_zero index)
    · exact absurd ended List.not_mem_nil
  | cons step ones =>
    by_cases open_ : step = .finish
    · rw [open_, alternate_finish, moves_finish, Nat.min_zero, Nat.add_zero]
    · have place : index + min (index + 1) (moves ones + 1) =
          index + min index (moves ones) + 1 := by omega
      rw [alternate_cons open_, moves_cons open_, place, List.getElem?_cons_succ]
      exact left within (reaches.tail open_)

/-- A step of the first side goes behind all steps before it and as many of the other side as
there are. -/
theorem getElem?_alternate_left {index : Nat} (within : index < ones.moves)
    (reaches : Reaches index others) :
    (alternate ones others)[index + min index others.moves]? = ones[index]? := by
  induction index generalizing ones others with
  | zero =>
    cases ones with
    | nil => exact absurd within (Nat.not_lt_zero _)
    | cons step ones =>
      by_cases open_ : step = .finish
      · rw [open_, moves_finish] at within
        exact absurd within (Nat.not_lt_zero _)
      · rw [alternate_cons open_, Nat.zero_min, List.getElem?_cons_zero, List.getElem?_cons_zero]
  | succ index left =>
    cases ones with
    | nil => exact absurd within (Nat.not_lt_zero _)
    | cons step ones =>
      by_cases open_ : step = .finish
      · rw [open_, moves_finish] at within
        exact absurd within (Nat.not_lt_zero _)
      · rw [moves_cons open_] at within
        have place : index + 1 + min (index + 1) others.moves =
            index + min (index + 1) others.moves + 1 := by omega
        rw [alternate_cons open_, place, List.getElem?_cons_succ, List.getElem?_cons_succ]
        exact getElem?_alternate_right_of_left left (by omega) reaches

/-- A step of the second side goes behind all steps before it and one more of the other side, as
far as there are so many. -/
theorem getElem?_alternate_right {index : Nat} (within : index < others.moves)
    (reaches : Reaches (index + 1) ones) :
    (alternate ones others)[index + min (index + 1) ones.moves]? = others[index]? :=
  getElem?_alternate_right_of_left getElem?_alternate_left within reaches

/-- Every step in turn comes from one of the sides. Behind the first step the sides have changed
places. -/
theorem exists_of_alternate {index : Nat} (properOnes : Proper ones) (properOthers : Proper others)
    (there : (alternate ones others)[index]? = some step) (open_ : step ≠ .finish) :
    (∃ place < ones.moves, ones[place]? = some step ∧
        index = place + min place others.moves) ∨
      ∃ place < others.moves, others[place]? = some step ∧
        index = place + min (place + 1) ones.moves := by
  induction index generalizing ones others with
  | zero =>
    cases ones with
    | nil =>
      rw [alternate_nil, List.getElem?_nil] at there
      exact nomatch there
    | cons first ones =>
      by_cases ended : first = .finish
      · rw [ended, alternate_finish] at there
        rw [ended, moves_finish]
        exact .inr ⟨0, properOthers there open_, there, rfl⟩
      · rw [alternate_cons ended, List.getElem?_cons_zero] at there
        refine .inl ⟨0, ?_, there, by rw [Nat.zero_min]⟩
        rw [moves_cons ended]
        exact Nat.succ_pos _
  | succ index earlier =>
    cases ones with
    | nil =>
      rw [alternate_nil, List.getElem?_nil] at there
      exact nomatch there
    | cons first ones =>
      by_cases ended : first = .finish
      · rw [ended, alternate_finish] at there
        rw [ended, moves_finish]
        exact .inr ⟨index + 1, properOthers there open_, there, rfl⟩
      · rw [alternate_cons ended, List.getElem?_cons_succ] at there
        rw [moves_cons ended]
        rcases earlier properOthers (properOnes.tail ended) there with
          ⟨place, within, found, same⟩ | ⟨place, within, found, same⟩
        · exact .inr ⟨place, within, found, by omega⟩
        · exact .inl ⟨place + 1, by omega, List.getElem?_cons_succ.trans found, by omega⟩

end Lists

/-- A sequence of steps that may go on forever, by its first so many steps. -/
structure Sequence (α : Type) where
  /-- The first so many steps, or all if there are fewer. -/
  first : Nat → Steps α
  /-- More steps start with fewer ones. -/
  coherent : ∀ {fewer count : Nat}, fewer ≤ count → first fewer = (first count).take fewer
  /-- There are as many steps as were asked for, or the end is among them. -/
  reaches : ∀ count, Reaches count (first count)
  /-- Behind the end there is nothing. -/
  proper : ∀ count, Proper (first count)

namespace Sequence

variable (sequence ones others : Sequence α)

/-- The step at a place. -/
def step? (index : Nat) : Option (Step α) := (sequence.first (index + 1))[index]?

/-- How many of the first so many steps come before the end. -/
def moves (count : Nat) : Nat := (sequence.first count).moves

/-- The step at a place is there in every longer beginning. -/
theorem getElem?_first {index count : Nat} (within : index < count) :
    (sequence.first count)[index]? = sequence.step? index := by
  unfold step?
  rw [sequence.coherent (show index + 1 ≤ count from within), List.getElem?_take_of_lt]
  exact Nat.lt_succ_self index

/-- No beginning is longer than was asked for. -/
theorem length_first_le (count : Nat) : (sequence.first count).length ≤ count := by
  rw [sequence.coherent (Nat.le_refl count)]
  exact List.length_take_le _ _

/-- A step in a beginning is the step at its place. -/
theorem step?_of_first {index count : Nat} {step : Step α}
    (there : (sequence.first count)[index]? = some step) : sequence.step? index = some step := by
  obtain ⟨within, _⟩ := List.getElem?_eq_some_iff.mp there
  have le := sequence.length_first_le count
  rw [← there, sequence.getElem?_first (by omega)]

/-- Where the first steps of a sequence are shown, its steps are those that are at a place. -/
theorem step?_eq_some_iff {shown : Nat → Steps α → Prop} {sequence : Sequence α}
    (same : ∀ {count steps}, shown count steps ↔ steps = sequence.first count) {index : Nat}
    {step : Step α} : sequence.step? index = some step ↔
      ∃ count steps, shown count steps ∧ steps[index]? = some step := by
  constructor
  · exact fun there => ⟨index + 1, _, same.mpr rfl, there⟩
  · rintro ⟨count, steps, shows, there⟩
    exact sequence.step?_of_first (same.mp shows ▸ there)

/-- No more steps come before the end than were asked for. -/
theorem moves_le (count : Nat) : sequence.moves count ≤ count :=
  Nat.le_trans (moves_le_length _) (sequence.length_first_le count)

/-- Among fewer steps, as many come before the end as can. -/
theorem min_moves {fewer count : Nat} (le : fewer ≤ count) :
    min fewer (sequence.first count).moves = sequence.moves fewer := by
  unfold moves
  rw [sequence.coherent le, moves_take]

/-- Among more steps more come before the end. -/
theorem moves_mono {fewer count : Nat} (le : fewer ≤ count) :
    sequence.moves fewer ≤ sequence.moves count := by
  rw [← sequence.min_moves le]
  exact Nat.min_le_right _ _

/-- Up to a step that is not the end, all steps come before the end. -/
theorem moves_eq {index count : Nat} {step : Step α} (there : sequence.step? index = some step)
    (open_ : step ≠ .finish) (le : count ≤ index + 1) : sequence.moves count = count := by
  have before : index < (sequence.first (index + 1)).moves := sequence.proper _ there open_
  rw [← sequence.min_moves le]
  omega

/-- Where a step goes whose side begins. -/
def firstPlace (index : Nat) : Nat := index + others.moves index

/-- Where a step goes whose side does not begin. -/
def secondPlace (index : Nat) : Nat := index + ones.moves (index + 1)

/-- The steps of the side that begins stay in their order. -/
theorem firstPlace_strictMono : StrictMono others.firstPlace := by
  intro before after less
  have more := others.moves_mono (Nat.le_of_lt less)
  unfold firstPlace
  omega

/-- The steps of the other side stay in their order. -/
theorem secondPlace_strictMono : StrictMono ones.secondPlace := by
  intro before after less
  have more := ones.moves_mono (show before + 1 ≤ after + 1 by omega)
  unfold secondPlace
  omega

/-- A step of the side that begins goes at most twice as far on. -/
theorem firstPlace_le (index : Nat) : others.firstPlace index ≤ 2 * index := by
  have few := others.moves_le index
  unfold firstPlace
  omega

/-- A step of the other side goes at most twice as far on and one more. -/
theorem secondPlace_le (index : Nat) : ones.secondPlace index ≤ 2 * index + 1 := by
  have few := ones.moves_le (index + 1)
  unfold secondPlace
  omega

variable {ones others} {index count : Nat} {step : Step α}

/-- A step of the side that begins is at its place. -/
theorem getElem?_firstPlace (there : ones.step? index = some step) (open_ : step ≠ .finish)
    (within : index < count) :
    (alternate (ones.first count) (others.first count))[others.firstPlace index]? =
      some step := by
  have found : (ones.first count)[index]? = some step := by
    rw [ones.getElem?_first within, there]
  have reaches : Reaches index (others.first count) := by
    rcases others.reaches count with far | ended
    · exact .inl (by omega)
    · exact .inr ended
  have placed := getElem?_alternate_left (ones.proper count found open_) reaches
  rw [others.min_moves (Nat.le_of_lt within), found] at placed
  exact placed

/-- A step of the other side is at its place. -/
theorem getElem?_secondPlace (there : others.step? index = some step) (open_ : step ≠ .finish)
    (within : index < count) :
    (alternate (ones.first count) (others.first count))[ones.secondPlace index]? =
      some step := by
  have found : (others.first count)[index]? = some step := by
    rw [others.getElem?_first within, there]
  have reaches : Reaches (index + 1) (ones.first count) := by
    rcases ones.reaches count with far | ended
    · exact .inl (by omega)
    · exact .inr ended
  have placed := getElem?_alternate_right (others.proper count found open_) reaches
  rw [ones.min_moves within, found] at placed
  exact placed

/-- Every step in turn is a step of one of the sides at its place. -/
theorem exists_place {index : Nat}
    (there : (alternate (ones.first count) (others.first count))[index]? = some step)
    (open_ : step ≠ .finish) :
    (∃ place, others.firstPlace place = index ∧ ones.step? place = some step) ∨
      ∃ place, ones.secondPlace place = index ∧ others.step? place = some step := by
  rcases exists_of_alternate (ones.proper count) (others.proper count) there open_ with
    ⟨place, before, found, same⟩ | ⟨place, before, found, same⟩
  · have within := ones.moves_le count
    unfold moves at within
    rw [others.min_moves (show place ≤ count by omega)] at same
    exact .inl ⟨place, same.symm, ones.step?_of_first found⟩
  · have within := others.moves_le count
    unfold moves at within
    rw [ones.min_moves (show place + 1 ≤ count by omega)] at same
    exact .inr ⟨place, same.symm, others.step?_of_first found⟩

/-- Steps of both sides are never at one place. -/
theorem firstPlace_ne_secondPlace {other : Nat} {step' : Step α}
    (one : ones.step? index = some step) (open_ : step ≠ .finish)
    (another : others.step? other = some step') (open' : step' ≠ .finish) :
    others.firstPlace index ≠ ones.secondPlace other := by
  unfold firstPlace secondPlace
  by_cases le : index ≤ other
  · have all := others.moves_eq another open' (show index ≤ other + 1 by omega)
    have many := ones.moves_mono (show index + 1 ≤ other + 1 by omega)
    have full := ones.moves_eq one open_ (Nat.le_refl _)
    omega
  · have all := ones.moves_eq one open_ (show other + 1 ≤ index + 1 by omega)
    have many := others.moves_mono (show other + 1 ≤ index by omega)
    have full := others.moves_eq another open' (Nat.le_refl _)
    omega

end Sequence

end Relational.Steps
