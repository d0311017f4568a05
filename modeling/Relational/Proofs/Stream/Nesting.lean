import Mathlib.Tactic.Ring
import Relational.Proofs.Stream.Alternation

/-!
# Alternations one in another

A sequence may take turns between one at its front and a sequence that itself takes turns, and so
on without end. A step from the front of some level has passed through one alternation for each
level further out, and each of them took it at most twice as far on and one more. So the step has
a place that is bounded by powers of two, whatever all the other sequences are.
-/
namespace Relational.Steps.Sequence

variable {α : Type}

/-- Every one of some sequences takes turns between a sequence of its own and the next one. -/
def Nested (front whole : Nat → Sequence α) : Prop :=
  ∀ level count, (whole level).first count =
    (alternate ((front level).first count) ((whole (level + 1)).first count)).take count

/-- Where a step of a nested sequence goes in the outermost one. -/
def outward (front : Nat → Sequence α) : Nat → Nat → Nat
  | 0, index => index
  | level + 1, index => outward front level ((front level).secondPlace index)

/-- Where a step of the sequence at the front of a nested one goes in the outermost one. -/
def nestedPlace (front whole : Nat → Sequence α) (level index : Nat) : Nat :=
  outward front level ((whole (level + 1)).firstPlace index)

section Nesting

variable (front whole : Nat → Sequence α)

/-- Nested steps keep their order. -/
theorem outward_strictMono (level : Nat) : StrictMono (outward front level) := by
  induction level with
  | zero => exact strictMono_id
  | succ level outer => exact outer.comp (front level).secondPlace_strictMono

/-- Each level takes a step at most twice as far on and one more. -/
theorem outward_le (level index : Nat) :
    outward front level index ≤ 2 ^ level * (index + 1) - 1 := by
  induction level generalizing index with
  | zero =>
    show index ≤ _
    omega
  | succ level outer =>
    have once := (front level).secondPlace_le index
    have more : 2 ^ level * ((front level).secondPlace index + 1) ≤ 2 ^ level * (2 * index + 2) :=
      Nat.mul_le_mul_left _ (by omega)
    have twice : 2 ^ (level + 1) * (index + 1) = 2 ^ level * (2 * index + 2) := by ring
    have le := outer ((front level).secondPlace index)
    show outward front level ((front level).secondPlace index) ≤ _
    omega

/-- The steps of a sequence at the front keep their order. -/
theorem nestedPlace_strictMono (level : Nat) : StrictMono (nestedPlace front whole level) :=
  (outward_strictMono front level).comp (whole (level + 1)).firstPlace_strictMono

/-- No sequence at the front waits for the others longer than its level allows. -/
theorem nestedPlace_le (level index : Nat) :
    nestedPlace front whole level index ≤ 2 ^ level * (2 * index + 1) - 1 := by
  have turn := (whole (level + 1)).firstPlace_le index
  have more : 2 ^ level * ((whole (level + 1)).firstPlace index + 1) ≤
      2 ^ level * (2 * index + 1) := Nat.mul_le_mul_left _ (by omega)
  have le := outward_le front level ((whole (level + 1)).firstPlace index)
  show outward front level ((whole (level + 1)).firstPlace index) ≤ _
  omega

variable {front whole} (nested : Nested front whole) {level index : Nat} {step : Step α}
  (open_ : step ≠ .finish)

include nested open_

/-- A step of the sequence at the front is at its place. -/
theorem Nested.step?_front (there : (front level).step? index = some step) :
    (whole level).step? ((whole (level + 1)).firstPlace index) = some step := by
  have far : index ≤ (whole (level + 1)).firstPlace index := Nat.le_add_right _ _
  unfold step?
  rw [nested, List.getElem?_take_of_lt (Nat.lt_succ_self _)]
  exact getElem?_firstPlace there open_ (Nat.lt_succ_of_le far)

/-- A step of the next sequence is at its place. -/
theorem Nested.step?_next (there : (whole (level + 1)).step? index = some step) :
    (whole level).step? ((front level).secondPlace index) = some step := by
  have far : index ≤ (front level).secondPlace index := Nat.le_add_right _ _
  unfold step?
  rw [nested, List.getElem?_take_of_lt (Nat.lt_succ_self _)]
  exact getElem?_secondPlace there open_ (Nat.lt_succ_of_le far)

/-- Every step is a step of the sequence at the front or of the next one, at its place. -/
theorem Nested.exists_turn (there : (whole level).step? index = some step) :
    (∃ place, (whole (level + 1)).firstPlace place = index ∧
        (front level).step? place = some step) ∨
      ∃ place, (front level).secondPlace place = index ∧
        (whole (level + 1)).step? place = some step := by
  unfold step? at there
  rw [nested, List.getElem?_take_of_lt (Nat.lt_succ_self _)] at there
  exact exists_place there open_

/-- A nested step has a place at every level further out. -/
theorem Nested.exists_outward {outer : Nat} (le : outer ≤ level)
    (there : (whole level).step? index = some step) :
    ∃ place, outward front level index = outward front outer place ∧
      (whole outer).step? place = some step := by
  induction le generalizing index with
  | refl => exact ⟨index, rfl, there⟩
  | step _ further => exact further (nested.step?_next open_ there)

/-- No step of a sequence at the front is lost. -/
theorem Nested.step?_nestedPlace (there : (front level).step? index = some step) :
    (whole 0).step? (nestedPlace front whole level index) = some step := by
  obtain ⟨place, same, found⟩ :=
    nested.exists_outward open_ (Nat.zero_le level) (nested.step?_front open_ there)
  unfold nestedPlace
  rw [same]
  exact found

/-- Steps of sequences at different fronts are never at one place. -/
theorem Nested.nestedPlace_ne {inner other : Nat} {step' : Step α} (open' : step' ≠ .finish)
    (less : level < inner) (there : (front level).step? index = some step)
    (there' : (front inner).step? other = some step') :
    nestedPlace front whole level index ≠ nestedPlace front whole inner other := by
  obtain ⟨place, same, found⟩ :=
    nested.exists_outward open' (show level + 1 ≤ inner from less) (nested.step?_front open' there')
  have apart := firstPlace_ne_secondPlace there open_ found open'
  have placed : nestedPlace front whole inner other =
      outward front level ((front level).secondPlace place) := same
  rw [placed]
  exact fun together => apart ((outward_strictMono front level).injective together)

/-- Every step of the outermost sequence comes from one of the first fronts or from further in. -/
theorem Nested.exists_level (there : (whole 0).step? index = some step) (depth : Nat) :
    (∃ level < depth, ∃ place, nestedPlace front whole level place = index ∧
        (front level).step? place = some step) ∨
      ∃ place, outward front depth place = index ∧ (whole depth).step? place = some step := by
  induction depth with
  | zero => exact .inr ⟨index, rfl, there⟩
  | succ depth outer =>
    rcases outer with ⟨level, less, found⟩ | ⟨place, same, found⟩
    · exact .inl ⟨level, Nat.lt_succ_of_lt less, found⟩
    · rcases nested.exists_turn open_ found with ⟨turn, same', found⟩ | ⟨turn, same', found⟩
      · refine .inl ⟨depth, Nat.lt_succ_self depth, turn, ?_, found⟩
        rw [← same, ← same']
        rfl
      · refine .inr ⟨turn, ?_, found⟩
        rw [← same, ← same']
        rfl

/-- Where no front has ended before the sequences behind it, each level takes a step further on. -/
theorem Nested.le_outward
    (goes : ∀ {level index : Nat} {step : Step α}, step ≠ .finish →
      (whole (level + 1)).step? index = some step →
        ∃ first ≠ .finish, (front level).step? 0 = some first)
    (there : (whole level).step? index = some step) :
    level + index ≤ outward front level index := by
  induction level generalizing index with
  | zero => exact Nat.le_of_eq (Nat.zero_add index)
  | succ level further =>
    obtain ⟨first, still, starts⟩ := goes open_ there
    have one := (front level).moves_eq starts still (Nat.le_refl 1)
    have more := (front level).moves_mono (show 1 ≤ index + 1 by omega)
    have le := further (nested.step?_next open_ there)
    have turn : (front level).secondPlace index = index + (front level).moves (index + 1) := rfl
    show _ ≤ outward front level ((front level).secondPlace index)
    omega

end Nesting

section Ending

variable {steps ones others : Steps α}

/-- The end is among the steps in turn where it is among the steps of both sides. -/
theorem finish_mem_alternate :
    .finish ∈ alternate ones others ↔ .finish ∈ ones ∧ .finish ∈ others := by
  induction ones, others using alternate.induct with
  | case1 others => simp
  | case2 steps others => simp
  | case3 steps others turned => simp [turned, and_comm]
  | case4 value steps others turned => simp [turned, and_comm]

/-- No steps are added where two sides take turns. -/
theorem moves_alternate_le (ones others : Steps α) :
    (alternate ones others).moves ≤ ones.moves + others.moves := by
  induction ones, others using alternate.induct with
  | case1 others => simp
  | case2 steps others => simp
  | case3 steps others turned =>
    rw [alternate_tick]
    show (alternate others steps).moves + 1 ≤ Steps.moves steps + 1 + Steps.moves others
    omega
  | case4 value steps others turned =>
    rw [alternate_value]
    show (alternate others steps).moves + 1 ≤ Steps.moves steps + 1 + Steps.moves others
    omega

/-- Where the end is among some steps, not all of them come before it. -/
theorem moves_lt_length (ended : .finish ∈ steps) : steps.moves < steps.length := by
  induction steps with
  | nil => exact nomatch ended
  | cons step steps later =>
    by_cases open_ : step = .finish
    · rw [open_, moves_finish]
      exact Nat.succ_pos _
    · have further := later ((List.mem_cons.mp ended).resolve_left fun same => open_ same.symm)
      rw [moves_cons open_, List.length_cons]
      exact Nat.succ_lt_succ further

/-- The end is a step of a sequence if it is among some of its first steps. -/
theorem exists_finish_iff {sequence : Sequence α} :
    (∃ index, sequence.step? index = some .finish) ↔ ∃ count, .finish ∈ sequence.first count := by
  constructor
  · rintro ⟨index, there⟩
    exact ⟨index + 1, List.mem_of_getElem? there⟩
  · rintro ⟨count, ended⟩
    obtain ⟨index, there⟩ := List.getElem?_of_mem ended
    exact ⟨index, sequence.step?_of_first there⟩

/-- Once the end was among the first steps there are no more steps before it. -/
theorem moves_lt_of_finish_mem {sequence : Sequence α} {count more : Nat} (le : count ≤ more)
    (ended : .finish ∈ sequence.first count) : sequence.moves more < count := by
  have few : sequence.moves count < (sequence.first count).length := moves_lt_length ended
  have short := sequence.length_first_le count
  have same : min count (sequence.moves more) = sequence.moves count := sequence.min_moves le
  omega

variable {front whole : Nat → Sequence α} (nested : Nested front whole)

include nested

/-- A nested sequence ends where the one at its front and the next one do. More steps are asked for
than both have before their ends. -/
theorem Nested.exists_finish_iff_front_next (level : Nat) :
    (∃ index, (whole level).step? index = some .finish) ↔
      (∃ index, (front level).step? index = some .finish) ∧
        ∃ index, (whole (level + 1)).step? index = some .finish := by
  rw [exists_finish_iff, exists_finish_iff, exists_finish_iff]
  constructor
  · rintro ⟨count, ended⟩
    rw [nested] at ended
    have both := finish_mem_alternate.mp (List.mem_of_mem_take ended)
    exact ⟨⟨count, both.1⟩, count, both.2⟩
  · rintro ⟨⟨first, endedFirst⟩, next, endedNext⟩
    have fewFirst := moves_lt_of_finish_mem (Nat.le_add_right first next) endedFirst
    have fewNext := moves_lt_of_finish_mem (Nat.le_add_left next first) endedNext
    have few : (whole level).moves (first + next) < first + next := by
      have turned := moves_alternate_le ((front level).first (first + next))
        ((whole (level + 1)).first (first + next))
      unfold moves at fewFirst fewNext ⊢
      rw [nested, moves_take]
      omega
    exact ⟨_, ((whole level).reaches (first + next)).resolve_left (Nat.not_le_of_lt few)⟩

/-- The outermost sequence ends where all of the first fronts and what lies further in do. -/
theorem Nested.exists_finish_iff_fronts (depth : Nat) :
    (∃ index, (whole 0).step? index = some .finish) ↔
      (∀ level < depth, ∃ index, (front level).step? index = some .finish) ∧
        ∃ index, (whole depth).step? index = some .finish := by
  induction depth with
  | zero => simp
  | succ depth outer =>
    rw [outer, nested.exists_finish_iff_front_next depth, Nat.forall_lt_succ_right, and_assoc]

end Ending

end Relational.Steps.Sequence
