import Relational.Proofs.Stream.Alternation
import Relational.Proofs.Stream.Observation

/-!
# Merging

The steps of a merge are the steps of its two sides in turn. Shown without sharing this is an
induction on the number of steps in which the sides change places; from there it holds of the
stream that a merge makes on any closed heap, whatever the two sides share and whatever has been
forced before.
-/
namespace Relational

variable {α ε ρ : Type}

namespace Recipe

variable {routines : ρ → Plan α ε ρ} {base : Heap α ε ρ} {reading : Reading α ε ρ}

/-- What a merge makes shows what both sides show, in turn. Behind its first step the first side has
the second one before it. -/
theorem observe_merge (fixed : Reading.Fixed routines base reading) {first second : Recipe α ε ρ}
    {count : Nat} {ones others : Steps α} (one : first.observe reading count = some ones)
    (other : second.observe reading count = some others) :
    (merge first second).observe reading count =
      some ((Steps.alternate ones others).take count) := by
  induction count generalizing first second ones others with
  | zero => rw [List.take_zero]; rfl
  | succ count shorter =>
    obtain ⟨stream, made, one⟩ := observe_succ_eq_some.mp one
    have behind : ∀ {tail : Recipe α ε ρ} {rest : Steps α},
        tail.observe reading count = some rest →
          (merge second tail).observe reading count =
            some ((Steps.alternate others rest).take count) := by
      intro tail rest seen
      have turned := shorter (observe_take (Nat.le_succ count) other) seen
      have fewer := Steps.take_alternate (Nat.le_refl count) (Nat.le_refl count) others rest
      rw [List.take_of_length_le (length_observe_le seen)] at fewer
      rw [turned, fewer]
    have followed : reading.force (merge first second) = stream.mergeWith reading second := by
      rw [fixed.force]
      show (reading.force first).bind _ = _
      rw [made, Option.bind_some]
    cases stream with
    | empty =>
      rw [Unshared.observe_empty] at one
      cases one
      obtain ⟨stream, made', seen⟩ := observe_succ_eq_some.mp other
      rw [Steps.alternate_finish, List.take_of_length_le (length_observe_le other)]
      exact observe_succ_eq_some.mpr ⟨stream, followed.trans made', seen⟩
    | cons head tail =>
      rw [Unshared.observe_cons] at one
      obtain ⟨rest, seen, rfl⟩ := Option.map_eq_some_iff.mp one
      refine observe_succ_eq_some.mpr ⟨_, followed, ?_⟩
      rw [Unshared.observe_cons, behind seen, Steps.alternate_value, List.take_succ_cons]
      rfl
    | suspended content =>
      rw [Unshared.observe_suspended] at one
      obtain ⟨rest, seen, rfl⟩ := Option.map_eq_some_iff.mp one
      refine observe_succ_eq_some.mpr ⟨_, followed, ?_⟩
      rw [Unshared.observe_suspended, behind seen, Steps.alternate_tick, List.take_succ_cons]
      rfl

end Recipe

namespace Unshared

variable {routines : ρ → Plan α ε ρ} {base : Heap α ε ρ} {reading : Reading α ε ρ}

/-- A recipe for a known stream shows what the stream shows. -/
theorem observe_known (fixed : Reading.Fixed routines base reading) (stream : Unshared α ε ρ)
    (count : Nat) : (Recipe.known stream).observe reading count = stream.observe reading count := by
  cases count with
  | zero => rw [observe_zero]; rfl
  | succ count =>
    show (reading.force (.known stream)).bind _ = _
    rw [fixed.force]
    rfl

/-- A merge makes a stream that shows what both sides show, in turn. -/
theorem observe_mergeWith (fixed : Reading.Fixed routines base reading) {first : Unshared α ε ρ}
    {second : Recipe α ε ρ} {count : Nat} {ones others : Steps α}
    (one : first.observe reading (count + 1) = some ones)
    (other : second.observe reading (count + 1) = some others) :
    ∃ merged, first.mergeWith reading second = some merged ∧
      merged.observe reading (count + 1) =
        some ((Steps.alternate ones others).take (count + 1)) := by
  have known : (Recipe.known first).observe reading (count + 1) = some ones := by
    rw [observe_known fixed, one]
  obtain ⟨merged, made, seen⟩ :=
    Recipe.observe_succ_eq_some.mp (Recipe.observe_merge fixed known other)
  refine ⟨merged, ?_, seen⟩
  rw [← made, fixed.force]
  show _ = (reading.force (.known first)).bind _
  rw [fixed.force]
  rfl

/-- The stream that a merge makes shows what both sides show, in turn. -/
theorem observe_of_mergeWith (fixed : Reading.Fixed routines base reading)
    {first merged : Unshared α ε ρ} {second : Recipe α ε ρ}
    (made : first.mergeWith reading second = some merged) {count : Nat} {ones others : Steps α}
    (one : first.observe reading count = some ones)
    (other : second.observe reading count = some others) :
    merged.observe reading count = some ((Steps.alternate ones others).take count) := by
  cases count with
  | zero => rw [observe_zero, List.take_zero]
  | succ count =>
    obtain ⟨merged', made', seen⟩ := observe_mergeWith fixed one other
    rw [made, Option.some.injEq] at made'
    exact made' ▸ seen

/-- The first step of a stream is its end, or other steps come behind it. -/
theorem observe_succ_cases {stream : Unshared α ε ρ} {count : Nat} {steps : Steps α}
    (observed : stream.observe reading (count + 1) = some steps) :
    (stream = .empty ∧ steps = [.finish]) ∨
      ∃ (step : Step α) (rest : Steps α) (next : Unshared α ε ρ), step ≠ .finish ∧
        steps = step :: rest ∧ next.observe reading count = some rest := by
  have behind : ∀ {recipe : Recipe α ε ρ} {rest : Steps α},
      recipe.observe reading count = some rest →
        ∃ next : Unshared α ε ρ, next.observe reading count = some rest := by
    intro recipe rest seen
    cases count with
    | zero => exact ⟨.empty, by rw [observe_zero, ← seen]; rfl⟩
    | succ count =>
      obtain ⟨next, _, seen⟩ := Recipe.observe_succ_eq_some.mp seen
      exact ⟨next, seen⟩
  cases stream with
  | empty =>
    rw [observe_empty] at observed
    cases observed
    exact .inl ⟨rfl, rfl⟩
  | cons head tail =>
    rw [observe_cons] at observed
    obtain ⟨rest, seen, rfl⟩ := Option.map_eq_some_iff.mp observed
    obtain ⟨next, seen⟩ := behind seen
    exact .inr ⟨.value head, rest, next, fun impossible => (nomatch impossible), rfl, seen⟩
  | suspended content =>
    rw [observe_suspended] at observed
    obtain ⟨rest, seen, rfl⟩ := Option.map_eq_some_iff.mp observed
    obtain ⟨next, seen⟩ := behind seen
    exact .inr ⟨.tick, rest, next, fun impossible => (nomatch impossible), rfl, seen⟩

/-- As many steps as were asked for are seen, or the end is. -/
theorem observe_reaches {stream : Unshared α ε ρ} {count : Nat} {steps : Steps α}
    (observed : stream.observe reading count = some steps) : steps.Reaches count := by
  induction count generalizing stream steps with
  | zero => exact .inl (Nat.zero_le _)
  | succ count reaches =>
    rcases observe_succ_cases observed with ⟨_, rfl⟩ | ⟨step, rest, next, open_, rfl, seen⟩
    · exact .inr (List.mem_singleton.mpr rfl)
    · rcases reaches seen with far | ended
      · refine .inl ?_
        rw [Steps.moves_cons open_]
        omega
      · exact .inr (List.mem_cons_of_mem _ ended)

/-- Nothing is seen behind the end. -/
theorem observe_proper {stream : Unshared α ε ρ} {count : Nat} {steps : Steps α}
    (observed : stream.observe reading count = some steps) : steps.Proper := by
  induction count generalizing stream steps with
  | zero =>
    rw [observe_zero] at observed
    cases observed
    exact fun there => nomatch there
  | succ count proper =>
    intro index step there still
    rcases observe_succ_cases observed with ⟨_, rfl⟩ | ⟨first, rest, next, open_, rfl, seen⟩
    · cases index with
      | zero => exact absurd (Option.some.inj there).symm still
      | succ index => exact nomatch there
    · rw [Steps.moves_cons open_]
      cases index with
      | zero => exact Nat.succ_pos _
      | succ index =>
        rw [List.getElem?_cons_succ] at there
        have before := proper seen there still
        omega

/-- All steps of a stream that can be followed as far as is asked for. -/
noncomputable def sequence (stream : Unshared α ε ρ) (followed : ∀ count, ∃ steps,
    stream.observe reading count = some steps) : Steps.Sequence α where
  first count := (followed count).choose
  coherent le := Option.some.inj
    ((followed _).choose_spec.symm.trans (observe_take le (followed _).choose_spec))
  reaches count := observe_reaches (followed count).choose_spec
  proper count := observe_proper (followed count).choose_spec

/-- What is seen of a stream are the first steps of its sequence. -/
theorem observe_eq_some_iff {stream : Unshared α ε ρ} (followed : ∀ count, ∃ steps,
    stream.observe reading count = some steps) {count : Nat} {steps : Steps α} :
    stream.observe reading count = some steps ↔
      steps = (stream.sequence followed).first count := by
  have first : stream.observe reading count = some ((stream.sequence followed).first count) :=
    (followed count).choose_spec
  rw [first, Option.some.injEq]
  exact eq_comm

end Unshared

namespace Stream

variable (routines : ρ → Plan α ε ρ)

/-- A step is at a place among the steps of a stream. -/
def StepAt (heap : Heap α ε ρ) (stream : Stream α) (index : Nat) (step : Step α) : Prop :=
  ∃ count steps, stream.Shows routines heap count steps ∧ steps[index]? = some step

/-- The steps of two streams before their ends are the steps of a third one, in their order and
each at a place of its own. -/
structure Shuffles (heap : Heap α ε ρ) (first second : Stream α) (after : Heap α ε ρ)
    (merged : Stream α) (firstPlace secondPlace : Nat → Nat) : Prop where
  /-- The steps of the first stream keep their order. -/
  firstOrder : StrictMono firstPlace
  /-- The steps of the second stream keep their order. -/
  secondOrder : StrictMono secondPlace
  /-- No step of the first stream is lost. -/
  firstKept : ∀ {index : Nat} {step : Step α}, step ≠ .finish →
    first.StepAt routines heap index step → merged.StepAt routines after (firstPlace index) step
  /-- No step of the second stream is lost. -/
  secondKept : ∀ {index : Nat} {step : Step α}, step ≠ .finish →
    second.StepAt routines heap index step → merged.StepAt routines after (secondPlace index) step
  /-- There are no other steps. -/
  source : ∀ {index : Nat} {step : Step α}, step ≠ .finish →
    merged.StepAt routines after index step →
      (∃ place, firstPlace place = index ∧ first.StepAt routines heap place step) ∨
        ∃ place, secondPlace place = index ∧ second.StepAt routines heap place step
  /-- No step stands for a step of each stream. -/
  apart : ∀ {index other : Nat} {step step' : Step α}, step ≠ .finish → step' ≠ .finish →
    first.StepAt routines heap index step → second.StepAt routines heap other step' →
      firstPlace index ≠ secondPlace other

/-- Where streams show the first steps of sequences and a third stream shows those in turn, the
steps of the sequences are all steps of the third stream, at their places. -/
theorem shuffles_of_shows {heap after : Heap α ε ρ} {first second merged : Stream α}
    {ones others : Steps.Sequence α}
    (one : ∀ {count steps}, first.Shows routines heap count steps ↔ steps = ones.first count)
    (other : ∀ {count steps}, second.Shows routines heap count steps ↔ steps = others.first count)
    (both : ∀ {count steps}, merged.Shows routines after count steps ↔
      steps = (Steps.alternate (ones.first count) (others.first count)).take count) :
    Shuffles routines heap first second after merged others.firstPlace ones.secondPlace := by
  have stepOne : ∀ {index : Nat} {step : Step α}, first.StepAt routines heap index step ↔
      ones.step? index = some step := (Steps.Sequence.step?_eq_some_iff one).symm
  have stepOther : ∀ {index : Nat} {step : Step α}, second.StepAt routines heap index step ↔
      others.step? index = some step := (Steps.Sequence.step?_eq_some_iff other).symm
  have stepBoth : ∀ {index count : Nat} {step : Step α},
      (Steps.alternate (ones.first count) (others.first count))[index]? = some step →
        index < count → merged.StepAt routines after index step := by
    intro index count step there within
    exact ⟨count, _, both.mpr rfl, (List.getElem?_take_of_lt within).trans there⟩
  refine ⟨others.firstPlace_strictMono, ones.secondPlace_strictMono, ?_, ?_, ?_, ?_⟩
  · intro index step open_ there
    have far : index ≤ others.firstPlace index := Nat.le_add_right _ _
    exact stepBoth (Steps.Sequence.getElem?_firstPlace (stepOne.mp there) open_
      (Nat.lt_succ_of_le far)) (Nat.lt_succ_self _)
  · intro index step open_ there
    have far : index ≤ ones.secondPlace index := Nat.le_add_right _ _
    exact stepBoth (Steps.Sequence.getElem?_secondPlace (stepOther.mp there) open_
      (Nat.lt_succ_of_le far)) (Nat.lt_succ_self _)
  · rintro index step open_ ⟨count, steps, shows, there⟩
    rw [both.mp shows] at there
    have within : index < count := by
      obtain ⟨short, _⟩ := List.getElem?_eq_some_iff.mp there
      rw [List.length_take] at short
      omega
    rw [List.getElem?_take_of_lt within] at there
    rcases Steps.Sequence.exists_place there open_ with ⟨place, same, found⟩ | ⟨place, same, found⟩
    · exact .inl ⟨place, same, stepOne.mpr found⟩
    · exact .inr ⟨place, same, stepOther.mpr found⟩
  · intro index other step step' open_ open' one' another
    exact Steps.Sequence.firstPlace_ne_secondPlace (stepOne.mp one') open_ (stepOther.mp another)
      open'

section Merging

variable {routines} {heap : Heap α ε ρ} {first second : Stream α} (closed : heap.Closed)
  (withinFirst : first.Within heap.cells.size) (withinSecond : second.Within heap.cells.size)

include closed

/-- On a closed heap a stream shows what its unshared stream shows. -/
theorem shows_iff_of_closed (within : first.Within heap.cells.size) {count : Nat}
    {steps : Steps α} : first.Shows routines heap count steps ↔
      (first.unshared .cell).observe (.full routines heap) count = some steps :=
  shows_iff (heap.undisturbed routines)
    (closed.realizes (Reading.limit_fixed routines heap).force) within

/-- What is seen of a stream that can be followed are the first steps of a sequence. -/
theorem exists_sequence (within : first.Within heap.cells.size)
    (followed : ∀ count, ∃ steps, first.Shows routines heap count steps) :
    ∃ sequence : Steps.Sequence α, ∀ {count steps}, first.Shows routines heap count steps ↔
      steps = sequence.first count := by
  have live : ∀ count, ∃ steps,
      (first.unshared .cell).observe (.full routines heap) count = some steps := by
    intro count
    obtain ⟨steps, shows⟩ := followed count
    exact ⟨steps, (shows_iff_of_closed closed within).mp shows⟩
  refine ⟨(first.unshared .cell).sequence live, fun {count steps} => ?_⟩
  rw [shows_iff_of_closed closed within, Unshared.observe_eq_some_iff live]

include withinFirst withinSecond

/-- On a closed heap a merge makes what is read as the merge of both sides. -/
theorem implements_merge (depth : Nat) :
    (Comparison.upTo routines heap depth).Implements heap .cell
      (fun handlers => first.merge handlers second)
      (fun reading => (first.unshared .cell).mergeWith reading (.known (second.unshared .cell)))
      Comparison.ofStream :=
  (Comparison.executes_upTo depth).merge
    (closed.realizes (Reading.limit_fixed routines heap).force) withinFirst withinSecond

/-- Where both sides have a first step a merge is made. -/
theorem exists_merge {ones others : Steps α} (one : first.Shows routines heap 1 ones)
    (other : second.Shows routines heap 1 others) : ∃ bound merged after,
      first.merge (handlers routines bound) second heap = .ok merged after := by
  have fixed := Reading.limit_fixed routines heap
  have known := (Unshared.observe_known fixed (second.unshared .cell) 1).trans
    ((shows_iff_of_closed closed withinSecond).mp other)
  obtain ⟨made, read, _⟩ := Unshared.observe_mergeWith fixed
    ((shows_iff_of_closed closed withinFirst).mp one) known
  exact complete_of_implements (implements_merge closed withinFirst withinSecond)
    (heap.undisturbed routines) (.mergeWith _ _) read

/-- A merge that is made shows the first steps of both sides in turn. -/
theorem shows_merge {bound : Nat} {merged : Stream α} {after : Heap α ε ρ}
    (ran : first.merge (handlers routines bound) second heap = .ok merged after) {count : Nat}
    {ones others : Steps α} (one : first.Shows routines heap count ones)
    (other : second.Shows routines heap count others) {steps : Steps α} :
    merged.Shows routines after count steps ↔
      steps = (Steps.alternate ones others).take count := by
  have fixed := Reading.limit_fixed routines heap
  obtain ⟨recipe, made, read, grows, realizes, within, rfl⟩ :=
    sound_of_implements (implements_merge closed withinFirst withinSecond) ran
  have known := (Unshared.observe_known fixed (second.unshared .cell) count).trans
    ((shows_iff_of_closed closed withinSecond).mp other)
  have seen := Unshared.observe_of_mergeWith fixed read
    ((shows_iff_of_closed closed withinFirst).mp one) known
  rw [shows_iff ((heap.undisturbed routines).grows grows) realizes within, seen,
    Option.some.injEq]
  exact eq_comm

end Merging

/-- The steps of a merge are the steps of both sides in turn. On a closed heap where both sides can
be followed as far as is asked for, the merge is made under every bound that is large enough; its
first steps are the first ones of both sides in turn; and every step of the sides before their
ends has one place among them, at most twice as far on as it was, or one more for the second
side. -/
theorem merge_alternates {heap : Heap α ε ρ} (closed : heap.Closed) {first second : Stream α}
    (withinFirst : first.Within heap.cells.size) (withinSecond : second.Within heap.cells.size)
    (followFirst : ∀ count, ∃ steps, first.Shows routines heap count steps)
    (followSecond : ∀ count, ∃ steps, second.Shows routines heap count steps) :
    ∃ bound merged after,
      (∀ more, bound ≤ more →
        first.merge (handlers routines more) second heap = .ok merged after) ∧
      (∀ count ones others, first.Shows routines heap count ones →
        second.Shows routines heap count others → ∀ steps,
          merged.Shows routines after count steps ↔
            steps = (Steps.alternate ones others).take count) ∧
      ∃ firstPlace secondPlace : Nat → Nat,
        Shuffles routines heap first second after merged firstPlace secondPlace ∧
          (∀ index, firstPlace index ≤ 2 * index) ∧
            ∀ index, secondPlace index ≤ 2 * index + 1 := by
  obtain ⟨ones, one⟩ := exists_sequence closed withinFirst followFirst
  obtain ⟨others, other⟩ := exists_sequence closed withinSecond followSecond
  obtain ⟨bound, merged, after, ran⟩ :=
    exists_merge closed withinFirst withinSecond (one.mpr rfl) (other.mpr rfl)
  have stable : ∀ more, bound ≤ more →
      first.merge (handlers routines more) second heap = .ok merged after := by
    intro more le
    exact ((Handlers.Steady.merge first second).refines (handlers_mono routines le)).ok ran
  have both : ∀ {count steps}, merged.Shows routines after count steps ↔
      steps = (Steps.alternate (ones.first count) (others.first count)).take count :=
    shows_merge closed withinFirst withinSecond ran (one.mpr rfl) (other.mpr rfl)
  refine ⟨bound, merged, after, stable, ?_, others.firstPlace, ones.secondPlace,
    shuffles_of_shows routines one other both, others.firstPlace_le, ones.secondPlace_le⟩
  intro count ones others one other steps
  exact shows_merge closed withinFirst withinSecond ran one other

/-- A heap of a suspension of itself and of a stream at its end. -/
def looped : Heap Nat Unit Empty :=
  ⟨#[⟨.known (.suspended 0), .done (.suspended 0)⟩, ⟨.known .empty, .done .empty⟩], #[]⟩

/-- The heap of a suspension of itself is closed. -/
theorem looped_closed : looped.Closed := by
  constructor
  · intro cell found there
    rcases cell with _ | _ | cell
    · cases there
      exact Nat.succ_pos 1
    · cases there
      exact trivial
    · exact nomatch there
  · intro cell work stream there
    rcases cell with _ | _ | cell
    · cases there
      exact Nat.succ_pos 1
    · cases there
      exact trivial
    · exact nomatch there

/-- A suspension of itself only ticks. -/
theorem looped_ticks (count : Nat) :
    (suspended 0 : Stream Nat).observe (handlers nofun 1) count looped =
      .ok (List.replicate count .tick) looped := by
  induction count with
  | zero => rfl
  | succ count ticks =>
    cases count with
    | zero => rfl
    | succ count =>
      have again : (suspended 0 : Stream Nat).observe (handlers nofun 1) (count + 2) looped =
          ((suspended 0 : Stream Nat).observe (handlers nofun 1) (count + 1) >>= fun steps =>
            pure (.tick :: steps)) looped := rfl
      rw [again, Run.bind_apply, ticks]
      rfl

/-- A value merged with a suspension of itself comes after one tick at most. -/
theorem value_beside_endless_ticks :
    ∃ bound merged after,
      (suspended 0).merge (handlers nofun bound) (cons 7 1) looped = .ok merged after ∧
        ∃ index ≤ 1, merged.StepAt nofun after index (.value 7) := by
  have ends : ∀ count, ∃ steps, (cons 7 1 : Stream Nat).Shows nofun looped count steps := by
    intro count
    rcases count with _ | _ | count
    · exact ⟨[], 0, looped, rfl⟩
    · exact ⟨[.value 7], 0, looped, rfl⟩
    · exact ⟨[.value 7, .finish], 1, looped, rfl⟩
  have withinFirst : (suspended 0 : Stream Nat).Within looped.cells.size := Nat.succ_pos 1
  have withinSecond : (cons 7 1 : Stream Nat).Within looped.cells.size := Nat.lt_succ_self 1
  obtain ⟨bound, merged, after, made, _, _, place, shuffles, _, soon⟩ :=
    merge_alternates nofun looped_closed withinFirst withinSecond
      (fun count => ⟨_, 1, looped, looped_ticks count⟩) ends
  have value : (cons 7 1 : Stream Nat).StepAt nofun looped 0 (.value 7) :=
    ⟨1, [.value 7], ⟨0, looped, rfl⟩, rfl⟩
  exact ⟨bound, merged, after, made bound (Nat.le_refl bound), place 0, soon 0,
    shuffles.secondKept (fun impossible => nomatch impossible) value⟩

end Stream

end Relational
