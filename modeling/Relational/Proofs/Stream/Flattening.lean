import Relational.Proofs.Stream.Mapping
import Relational.Proofs.Stream.Nesting

/-!
# Flat maps of sequences

A flat map takes turns between what is made of its first value and the flat map of all steps
behind that, which is how its steps come to be nested alternations without end. A tick, and a
value of which nothing is made, take one turn and leave all others to the rest. So every step of
what is made of a value has a place of its own, and every value of the flat map stands at such a
place.
-/
namespace Relational.Steps

variable {α : Type}

/-- Steps that may be the first so many of a sequence. -/
structure Known (count : Nat) (steps : Steps α) : Prop where
  /-- There are so many, or the end is among them. -/
  reaches : Reaches count steps
  /-- Behind the end there is nothing. -/
  proper : Proper steps

section Lists

variable {count : Nat} {step : Step α} {steps ones others : Steps α} {body : α → Steps α}

theorem tick_ne_finish : (.tick : Step α) ≠ .finish := fun impossible => nomatch impossible

theorem value_ne_finish (value : α) : (.value value : Step α) ≠ .finish :=
  fun impossible => nomatch impossible

/-- Nothing more is known behind the end. -/
theorem Known.finish (count : Nat) : Known count ([.finish] : Steps α) := by
  refine ⟨.inr (List.mem_singleton.mpr rfl), ?_⟩
  intro index step there open_
  cases index with
  | zero => exact absurd (Option.some.inj there).symm open_
  | succ index => exact nomatch there

/-- One step more is known where one stands before those that are known. -/
theorem Known.cons (open_ : step ≠ .finish) (known : Known (count - 1) steps) :
    Known count (step :: steps) := by
  constructor
  · rcases known.reaches with far | ended
    · refine .inl ?_
      rw [moves_cons open_]
      omega
    · exact .inr (List.mem_cons_of_mem _ ended)
  · intro index other there still
    rw [moves_cons open_]
    cases index with
    | zero => exact Nat.succ_pos _
    | succ index =>
      rw [List.getElem?_cons_succ] at there
      exact Nat.succ_lt_succ (known.proper there still)

/-- Where more steps are known, fewer are. -/
theorem Known.mono {more : Nat} (known : Known more steps) (le : count ≤ more) :
    Known count steps :=
  ⟨known.reaches.imp (Nat.le_trans le) id, known.proper⟩

/-- What is known behind a step. -/
theorem Known.tail (open_ : step ≠ .finish) (known : Known count (step :: steps)) :
    Known (count - 1) steps := by
  cases count with
  | zero => exact ⟨.inl (Nat.zero_le _), Proper.tail open_ known.proper⟩
  | succ count => exact ⟨known.reaches.tail open_, Proper.tail open_ known.proper⟩

/-- The first so many steps are known from as many first steps. -/
theorem Known.take (known : Known count steps) : Known count (steps.take count) := by
  constructor
  · have reaches := known.reaches
    clear known
    induction steps generalizing count with
    | nil =>
      rw [List.take_nil]
      exact reaches
    | cons step steps taken =>
      cases count with
      | zero => exact .inl (Nat.zero_le _)
      | succ count =>
        rw [List.take_succ_cons]
        by_cases ended : step = .finish
        · exact .inr (ended ▸ List.mem_cons_self ..)
        · rcases taken (reaches.tail ended) with far | ended'
          · refine .inl ?_
            rw [moves_cons ended]
            omega
          · exact .inr (List.mem_cons_of_mem _ ended')
  · intro index step there open_
    have within : index < count := by
      obtain ⟨short, _⟩ := List.getElem?_eq_some_iff.mp there
      rw [List.length_take] at short
      omega
    rw [List.getElem?_take_of_lt within] at there
    have before := known.proper there open_
    rw [moves_take]
    omega

/-- As much is known of both sides in turn as of each of them. -/
theorem Known.alternate (one : Known count ones) (other : Known count others) :
    Known count (Steps.alternate ones others) := by
  induction ones, others using alternate.induct generalizing count with
  | case1 others =>
    rw [alternate_nil]
    exact one
  | case2 steps others =>
    rw [alternate_finish]
    exact other
  | case3 steps others turned =>
    rw [alternate_tick]
    exact (turned (other.mono (Nat.sub_le count 1)) (one.tail tick_ne_finish)).cons tick_ne_finish
  | case4 value steps others turned =>
    have open_ := value_ne_finish value
    rw [alternate_value]
    exact (turned (other.mono (Nat.sub_le count 1)) (one.tail open_)).cons open_

/-- As much is known of a flat map as of its source and of all that is made of its values. -/
theorem Known.flatMap (made : ∀ value, Known count (body value)) (source : Known count steps) :
    Known count (Steps.flatMap body steps) := by
  induction steps generalizing count with
  | nil => exact source
  | cons step steps behind =>
    have later (open_ : step ≠ .finish) : Known (count - 1) (Steps.flatMap body steps) :=
      behind (fun value => (made value).mono (Nat.sub_le count 1)) (source.tail open_)
    cases step with
    | finish => exact .finish count
    | tick => exact (later tick_ne_finish).cons tick_ne_finish
    | value value =>
      have further := later (value_ne_finish value)
      have known := made value
      rcases first : body value with _ | ⟨step, rest⟩
      · rw [flatMap_value_nil body first, ← first]
        exact known
      · by_cases ended : step = .finish
        · rw [flatMap_value_finish body (ended ▸ first)]
          exact further.cons tick_ne_finish
        · rw [first] at known
          rw [flatMap_value body first ended]
          exact (further.alternate (known.tail ended)).cons ended

/-- A flat map takes no turns with an end. Behind its first step, if there is one, the end has its
turn. -/
theorem alternate_flatMap_finish (body : α → Steps α) (steps : Steps α) :
    Steps.alternate (Steps.flatMap body steps) [.finish] = Steps.flatMap body steps := by
  have turned {step : Step α} (open_ : step ≠ .finish) (rest : Steps α) :
      Steps.alternate (step :: rest) [.finish] = step :: rest := by
    rw [alternate_cons open_, alternate_finish]
  cases steps with
  | nil => exact alternate_nil _
  | cons step steps =>
    cases step with
    | finish => exact alternate_finish _ _
    | tick => exact turned tick_ne_finish _
    | value value =>
      rcases first : body value with _ | ⟨step, rest⟩
      · rw [flatMap_value_nil body first]
        exact alternate_nil _
      · by_cases ended : step = .finish
        · rw [flatMap_value_finish body (ended ▸ first)]
          exact turned tick_ne_finish _
        · rw [flatMap_value body first ended]
          exact turned ended _

/-- What lies behind the first step, and the end behind the end. -/
def behind : Steps α → Steps α
  | [] => []
  | .finish :: _ => [.finish]
  | .tick :: steps => steps
  | .value _ :: steps => steps

/-- Behind a step that is not the end there are the steps after it. -/
theorem behind_cons (open_ : step ≠ .finish) (steps : Steps α) :
    behind (step :: steps) = steps := by
  cases step with
  | finish => exact absurd rfl open_
  | tick => rfl
  | value value => rfl

/-- What lies behind the first step is known but for one step. -/
theorem Known.behind (known : Known (count + 1) steps) : Known count (behind steps) := by
  cases steps with
  | nil => exact known.mono (Nat.le_succ count)
  | cons step steps =>
    by_cases ended : step = .finish
    · rw [ended]
      exact .finish count
    · rw [behind_cons ended]
      exact known.tail ended

/-- What lies behind the first step only depends on one step more. -/
theorem take_behind (count : Nat) (steps : Steps α) :
    (behind (steps.take (count + 1))).take count = (behind steps).take count := by
  cases steps with
  | nil => rfl
  | cons step steps =>
    rw [List.take_succ_cons]
    by_cases ended : step = .finish
    · rw [ended]
      rfl
    · rw [behind_cons ended, behind_cons ended, List.take_take, Nat.min_self]

end Lists

namespace Sequence

variable (sequence : Sequence α)

/-- The first steps of a sequence are known. -/
theorem known (count : Nat) : Known count (sequence.first count) :=
  ⟨sequence.reaches count, sequence.proper count⟩

/-- The sequence of some steps up to the end. -/
def ofSteps (steps : Steps α) (known : ∀ count, Known count steps) : Sequence α where
  first count := steps.take count
  coherent le := by rw [List.take_take, Nat.min_eq_left le]
  reaches count := (known count).take.reaches
  proper count := (known count).take.proper

/-- The steps of such a sequence are among those it was made of. -/
theorem mem_of_step?_ofSteps {steps : Steps α} {known : ∀ count, Known count steps} {index : Nat}
    {step : Step α} (there : (ofSteps steps known).step? index = some step) : step ∈ steps :=
  List.mem_of_mem_take (List.mem_of_getElem? there)

/-- The sequence that has ended. -/
def ended : Sequence α := ofSteps [.finish] .finish

/-- Of a sequence that has ended only the end is seen. -/
theorem first_ended (count : Nat) : (ended : Sequence α).first (count + 1) = [.finish] := by
  show ([.finish] : Steps α).take (count + 1) = _
  rw [List.take_succ_cons, List.take_nil]

/-- One tick. -/
def pause : Sequence α :=
  ofSteps [.tick, .finish] fun count => (Known.finish (count - 1)).cons tick_ne_finish

/-- Every sequence has a first step. -/
theorem exists_step?_zero : ∃ step, sequence.step? 0 = some step := by
  unfold step?
  cases first : sequence.first 1 with
  | nil =>
    have reaches := sequence.reaches 1
    rw [first] at reaches
    rcases reaches with far | impossible
    · exact absurd far (Nat.not_succ_le_zero 0)
    · exact nomatch impossible
  | cons step rest => exact ⟨step, rfl⟩

/-- A sequence behind its first step, and the end behind the end. -/
def tail : Sequence α where
  first count := (behind (sequence.first (count + 1))).take count
  coherent le := by
    rw [sequence.coherent (Nat.succ_le_succ le), take_behind, List.take_take, Nat.min_eq_left le]
  reaches count := (sequence.known (count + 1)).behind.take.reaches
  proper count := (sequence.known (count + 1)).behind.take.proper

/-- A sequence behind so many steps, and the end behind the end. -/
def drop : Nat → Sequence α
  | 0 => sequence
  | count + 1 => (drop count).tail

variable {sequence} {step : Step α}

/-- Every beginning starts with the first step. -/
theorem exists_first (there : sequence.step? 0 = some step) (count : Nat) :
    ∃ rest, sequence.first (count + 1) = step :: rest := by
  rw [← sequence.getElem?_first (Nat.succ_pos count)] at there
  cases first : sequence.first (count + 1) with
  | nil =>
    rw [first] at there
    exact nomatch there
  | cons other rest =>
    rw [first, List.getElem?_cons_zero, Option.some.injEq] at there
    exact ⟨rest, there ▸ rfl⟩

/-- A sequence with any step but the end has not ended from the start. -/
theorem exists_open {index : Nat} (there : sequence.step? index = some step)
    (open_ : step ≠ .finish) : ∃ first ≠ .finish, sequence.step? 0 = some first := by
  obtain ⟨first, starts⟩ := sequence.exists_step?_zero
  refine ⟨first, ?_, starts⟩
  rintro rfl
  obtain ⟨rest, begins⟩ := exists_first starts index
  have before := sequence.proper _ there open_
  rw [begins] at before
  exact absurd before (Nat.not_lt_zero _)

/-- A sequence consists of its first step and the steps behind that. -/
theorem first_succ (there : sequence.step? 0 = some step) (open_ : step ≠ .finish) (count : Nat) :
    sequence.first (count + 1) = step :: sequence.tail.first count := by
  obtain ⟨rest, first⟩ := exists_first there count
  have short := sequence.length_first_le (count + 1)
  rw [first, List.length_cons] at short
  show _ = step :: (behind (sequence.first (count + 1))).take count
  rw [first, behind_cons open_, List.take_of_length_le (by omega)]

/-- Behind the end there is the end. -/
theorem first_tail (ends : sequence.step? 0 = some .finish) (count : Nat) :
    sequence.tail.first count = ended.first count := by
  obtain ⟨rest, first⟩ := exists_first ends count
  show (behind (sequence.first (count + 1))).take count = _
  rw [first]
  rfl

/-- A sequence goes on with the steps behind the first one. -/
theorem step?_tail (open_ : step ≠ .finish) {index : Nat} :
    sequence.tail.step? index = some step ↔ sequence.step? (index + 1) = some step := by
  obtain ⟨first, starts⟩ := sequence.exists_step?_zero
  by_cases ends : first = .finish
  · subst ends
    constructor
    · intro there
      unfold step? at there
      rw [first_tail starts] at there
      exact absurd (ended.proper (index + 1) there open_) (Nat.not_lt_zero _)
    · intro there
      obtain ⟨first, still, starts'⟩ := exists_open there open_
      rw [starts, Option.some.injEq] at starts'
      exact absurd starts'.symm still
  · unfold step?
    rw [first_succ starts ends, List.getElem?_cons_succ]

/-- A sequence goes on with the steps behind so many. -/
theorem step?_drop (open_ : step ≠ .finish) {count index : Nat} :
    (sequence.drop count).step? index = some step ↔
      sequence.step? (count + index) = some step := by
  induction count generalizing index with
  | zero => rw [Nat.zero_add]; rfl
  | succ count further =>
    show (sequence.drop count).tail.step? index = some step ↔ _
    rw [step?_tail open_, further, show count + 1 + index = count + (index + 1) by omega]

section Mapping

variable (made : α → Sequence α)

/-- What becomes of a sequence when each value is replaced by a sequence. -/
def flatMap (source : Sequence α) : Sequence α where
  first count := (Steps.flatMap (fun value => (made value).first count)
    (source.first count)).take count
  coherent {fewer count} le := by
    have short : (fun value => (made value).first fewer) =
        fun value => ((made value).first count).take fewer :=
      funext fun value => (made value).coherent le
    rw [List.take_take, Nat.min_eq_left le, short, source.coherent le,
      take_flatMap (Nat.le_refl fewer) (Nat.le_refl fewer)]
  reaches count :=
    (Known.flatMap (fun value => (made value).known count) (source.known count)).take.reaches
  proper count :=
    (Known.flatMap (fun value => (made value).known count) (source.known count)).take.proper

/-- What takes turns with the flat map of the steps behind the first one: a tick for a tick and
for a value whose sequence ends at once, and the sequence of any other value. -/
def front (source : Sequence α) : Sequence α :=
  match source.step? 0 with
  | some .tick => pause
  | some (.value value) =>
    match (made value).step? 0 with
    | some .finish => pause
    | _ => made value
  | _ => ended

/-- The sequence made of a value is at the front unless it ends at once. -/
theorem front_value {source : Sequence α} {value : α} {index : Nat}
    (there : source.step? 0 = some (.value value))
    (found : (made value).step? index = some step) (open_ : step ≠ .finish) :
    front made source = made value := by
  obtain ⟨first, still, starts⟩ := exists_open found open_
  simp only [front, there, starts]
  cases first with
  | finish => exact absurd rfl still
  | tick => rfl
  | value other => rfl

/-- After its tick a pause leaves every turn to the other side. -/
theorem take_alternate_pause (source : Sequence α) (count : Nat) :
    (alternate (pause.first (count + 1)) ((source.flatMap made).first (count + 1))).take
      (count + 1) = .tick :: ((source.flatMap made).first (count + 1)).take count := by
  let others : Steps α :=
    Steps.flatMap (fun value => (made value).first (count + 1)) (source.first (count + 1))
  have first : (source.flatMap made).first (count + 1) = others.take (count + 1) := rfl
  have tick : (pause.first (count + 1)).take (count + 1) =
      ([.tick, .finish] : Steps α).take (count + 1) := by
    show (([.tick, .finish] : Steps α).take (count + 1)).take (count + 1) = _
    rw [List.take_take, Nat.min_self]
  have fewer : (others.take (count + 1)).take count = others.take count := by
    rw [List.take_take, Nat.min_eq_left (Nat.le_succ count)]
  rw [take_alternate_congr tick rfl, alternate_tick, List.take_succ_cons, first,
    take_alternate_congr fewer rfl, alternate_flatMap_finish, fewer]

/-- The first steps of a flat map are made of as many first steps or more of everything
involved. -/
theorem take_flatMap_first (source : Sequence α) {count here there : Nat} (leHere : count ≤ here)
    (leThere : count ≤ there) :
    (Steps.flatMap (fun value => (made value).first here) (source.first there)).take count =
      (source.flatMap made).first count := by
  have short : (fun value => ((made value).first here).take count) =
      fun value => (made value).first count :=
    funext fun value => ((made value).coherent leHere).symm
  rw [← take_flatMap (Nat.le_refl count) (Nat.le_refl count), short, ← source.coherent leThere]
  rfl

/-- The flat map of the steps behind the end has ended. -/
theorem first_flatMap_tail {source : Sequence α} (ends : source.step? 0 = some .finish)
    (count : Nat) : (source.tail.flatMap made).first (count + 1) = [.finish] := by
  show (Steps.flatMap _ (source.tail.first (count + 1))).take (count + 1) = _
  rw [first_tail ends, first_ended, Steps.flatMap, List.take_succ_cons, List.take_nil]

/-- A flat map takes turns between what comes of its first step and the flat map of the steps
behind. A tick stands for the first step where nothing else comes of it. -/
theorem first_flatMap (source : Sequence α) (count : Nat) :
    (source.flatMap made).first count =
      (alternate ((front made source).first count)
        ((source.tail.flatMap made).first count)).take count := by
  cases count with
  | zero => rfl
  | succ count =>
    let body : α → Steps α := fun value => (made value).first (count + 1)
    obtain ⟨step, starts⟩ := source.exists_step?_zero
    have whole : (source.flatMap made).first (count + 1) =
        (Steps.flatMap body (source.first (count + 1))).take (count + 1) := rfl
    have behind : (Steps.flatMap body (source.tail.first count)).take count =
        ((source.tail.flatMap made).first (count + 1)).take count := by
      rw [take_flatMap_first made source.tail (Nat.le_succ count) (Nat.le_refl count),
        (source.tail.flatMap made).coherent (Nat.le_succ count)]
    have paused (still : front made source = pause)
        (tick : Steps.flatMap body (source.first (count + 1)) =
          .tick :: Steps.flatMap body (source.tail.first count)) :
        (source.flatMap made).first (count + 1) =
          (alternate ((front made source).first (count + 1))
            ((source.tail.flatMap made).first (count + 1))).take (count + 1) := by
      rw [still, take_alternate_pause, whole, tick, List.take_succ_cons, behind]
    cases step with
    | finish =>
      obtain ⟨rest, first⟩ := exists_first starts count
      have nothing : front made source = ended := by simp only [front, starts]
      rw [nothing, whole, first, first_flatMap_tail made starts, first_ended, Steps.flatMap,
        alternate_finish]
    | tick =>
      apply paused
      · simp only [front, starts]
      · rw [first_succ starts tick_ne_finish]
        rfl
    | value value =>
      have open_ := value_ne_finish value
      obtain ⟨first, begins⟩ := (made value).exists_step?_zero
      by_cases ends : first = .finish
      · subst ends
        obtain ⟨rest, first⟩ := exists_first begins count
        apply paused
        · simp only [front, starts, begins]
        · rw [first_succ starts open_, flatMap_value_finish body first]
      · have first' := first_succ begins ends count
        rw [front_value made starts begins ends, whole, first_succ starts open_,
          flatMap_value body first' ends, first', alternate_cons ends, List.take_succ_cons,
          List.take_succ_cons, take_alternate_congr behind rfl]

end Mapping

section Placing

variable (made : α → Sequence α) (source : Sequence α)

/-- What takes turns with the flat map of the steps behind so many. -/
def fronts (level : Nat) : Sequence α := front made (source.drop level)

/-- The flat map of the steps behind so many. -/
def rests (level : Nat) : Sequence α := (source.drop level).flatMap made

/-- A flat map consists of nested alternations. -/
theorem nested_flatMap : Nested (fronts made source) (rests made source) :=
  fun level count => first_flatMap made (source.drop level) count

variable {made source} {level index : Nat} {step : Step α} {value : α}

/-- What is at the front of a flat map. -/
theorem front_cases (made : α → Sequence α) (source : Sequence α) :
    (source.step? 0 = some .finish ∧ front made source = ended) ∨
      front made source = pause ∨
        ∃ origin, source.step? 0 = some (.value origin) ∧ front made source = made origin ∧
          ∃ first ≠ .finish, (made origin).step? 0 = some first := by
  obtain ⟨step, there⟩ := source.exists_step?_zero
  cases step with
  | finish => exact .inl ⟨there, by simp only [front, there]⟩
  | tick => exact .inr (.inl (by simp only [front, there]))
  | value origin =>
    obtain ⟨first, starts⟩ := (made origin).exists_step?_zero
    by_cases ends : first = .finish
    · exact .inr (.inl (by simp only [front, there, starts, ends]))
    · exact .inr (.inr ⟨origin, there, front_value made there starts ends, first, ends, starts⟩)

/-- A value at the front comes of the sequence made of a value. -/
theorem exists_of_front_value (there : (front made source).step? index = some (.value value)) :
    ∃ origin, source.step? 0 = some (.value origin) ∧
      (made origin).step? index = some (.value value) := by
  rcases front_cases made source with ⟨_, same⟩ | same | ⟨origin, found, same, _⟩
  · rw [same] at there
    have member := mem_of_step?_ofSteps there
    exact nomatch List.mem_singleton.mp member
  · rw [same] at there
    have member := mem_of_step?_ofSteps there
    rcases List.mem_cons.mp member with impossible | member
    · exact nomatch impossible
    · exact nomatch List.mem_singleton.mp member
  · exact ⟨origin, found, same ▸ there⟩

/-- Where the flat map of the steps behind one goes on, there is something at the front. -/
theorem exists_front (open_ : step ≠ .finish)
    (there : (source.tail.flatMap made).step? index = some step) :
    ∃ first ≠ .finish, (front made source).step? 0 = some first := by
  rcases front_cases made source with ⟨ends, _⟩ | same | ⟨origin, _, same, first, still, starts⟩
  · unfold step? at there
    rw [first_flatMap_tail made ends] at there
    exact absurd (List.mem_singleton.mp (List.mem_of_getElem? there)) open_
  · rw [same]
    exact ⟨.tick, tick_ne_finish, rfl⟩
  · rw [same]
    exact ⟨first, still, starts⟩

/-- Where the step goes that stands at a place of what is made of the value at a place of the
source. -/
def mappedPlace (made : α → Sequence α) (source : Sequence α) : Nat → Nat → Nat :=
  nestedPlace (fronts made source) (rests made source)

/-- What is made of the value at a place of the source stands at the front of that level. -/
theorem step?_fronts {outer inner : Nat} (there : source.step? outer = some (.value value))
    (found : (made value).step? inner = some step) (open_ : step ≠ .finish) :
    (fronts made source outer).step? inner = some step := by
  have starts : (source.drop outer).step? 0 = some (.value value) :=
    (step?_drop (value_ne_finish value)).mpr there
  unfold fronts
  rw [front_value made starts found open_]
  exact found

/-- No step of what is made of a value of the source is lost. -/
theorem step?_mappedPlace {outer inner : Nat} (there : source.step? outer = some (.value value))
    (found : (made value).step? inner = some step) (open_ : step ≠ .finish) :
    (source.flatMap made).step? (mappedPlace made source outer inner) = some step :=
  (nested_flatMap made source).step?_nestedPlace open_ (step?_fronts there found open_)

/-- Every value of a flat map is a value of what is made of a value of the source, at its place. No
step at an index comes from further in than the index. -/
theorem exists_mappedPlace (there : (source.flatMap made).step? index = some (.value value)) :
    ∃ outer inner origin, mappedPlace made source outer inner = index ∧
      source.step? outer = some (.value origin) ∧
        (made origin).step? inner = some (.value value) := by
  have nested := nested_flatMap made source
  have open_ := value_ne_finish value
  rcases nested.exists_level open_ there (index + 1) with
    ⟨outer, _, inner, same, found⟩ | ⟨place, same, found⟩
  · obtain ⟨origin, starts, found⟩ := exists_of_front_value found
    exact ⟨outer, inner, origin, same, (step?_drop (value_ne_finish origin)).mp starts, found⟩
  · have far := nested.le_outward open_ (fun open_ there => exists_front open_ there) found
    omega

/-- No two steps of what is made of the values of the source have one place. -/
theorem mappedPlace_inj {outer inner outer' inner' : Nat} {value' : α} {step' : Step α}
    (open_ : step ≠ .finish) (open' : step' ≠ .finish)
    (there : source.step? outer = some (.value value))
    (found : (made value).step? inner = some step)
    (there' : source.step? outer' = some (.value value'))
    (found' : (made value').step? inner' = some step')
    (same : mappedPlace made source outer inner = mappedPlace made source outer' inner') :
    outer = outer' ∧ inner = inner' := by
  have nested := nested_flatMap made source
  have one := step?_fronts there found open_
  have other := step?_fronts there' found' open'
  rcases Nat.lt_trichotomy outer outer' with less | rfl | more
  · exact absurd same (nested.nestedPlace_ne open_ open' less one other)
  · exact ⟨rfl, (nestedPlace_strictMono _ _ outer).injective same⟩
  · exact absurd same.symm (nested.nestedPlace_ne open' open_ more other one)

end Placing

end Sequence

end Relational.Steps
