import Relational.Proofs.Goal.Forcing

/-!
# Searches that run out of indices

Where the indices of new variables run out on some way through a goal, the search for the goal is
given up, and not only the branch that the way leads through: whoever goes on asking for answers
comes to that fault after finitely many of them. The stream of such a goal cannot be followed as far
as is asked for, since a merge or a flat map can only be followed where all it is made of can, and
forcing its cells ends everywhere else. A path to a goal for new variables without room for them is
such a way.
-/
namespace Relational

open Search (Brings)

variable {A δ : Type} [BEq A] [Decidable (ReflBEq A)] {program : Program A δ}

namespace Search

/-- No stream of a search can be followed however far. -/
def Blocked (program : Program A δ) (search : Search A δ) : Prop :=
  ∀ scope stream, search.read (reading program) scope = some stream →
    ¬ stream.Live (reading program)

variable {search : Search A δ}

/-- Whether a search is blocked depends on what is read. -/
theorem Blocked.congr {other : Search A δ} (blocked : Blocked program search)
    (same : ∀ scope, other.read (reading program) scope = search.read (reading program) scope) :
    Blocked program other :=
  fun scope stream read => blocked scope stream ((same scope).symm.trans read)

/-- A flat map is blocked by its source. -/
theorem Blocked.mapcat (blocked : Blocked program search) (body : State A → Search A δ) :
    Blocked program (.mapcat search body) := by
  intro scope mapped read live
  obtain ⟨source, readSource, _, followed, _⟩ := exists_live_of_read_mapcat read live
  exact blocked scope source readSource followed

/-- A flat map is blocked by what the body makes of a state that the source brings. -/
theorem Brings.blocked_mapcat {state : State A} (brings : Brings program search state)
    {body : State A → Search A δ} (blocked : Blocked program (body state)) :
    Blocked program (.mapcat search body) := by
  intro scope mapped read live
  obtain ⟨source, readSource, _, liveSource, applied⟩ := exists_live_of_read_mapcat read live
  obtain ⟨stream, readStream, followed⟩ :=
    applied state (brings scope source readSource liveSource)
  exact blocked scope stream readStream followed

/-- A suspension is blocked by the routine behind it. -/
theorem blocked_suspend {routine : δ × State A}
    (blocked : Blocked program (program.routines routine)) :
    Blocked program (.suspend (.call routine)) := by
  intro scope stream read live
  cases read
  obtain ⟨behind, forced, followed⟩ := live.content
  exact blocked [] behind ((force_call scope).symm.trans forced) followed

/-- The cells of a blocked search can be forced one after another only so far: if nothing but
indices may run out, they do. -/
theorem Blocked.exists_take_eq_error (blocked : Blocked program search) (tame : search.Tame) :
    ∃ enough, ∀ bound count, enough ≤ bound → enough ≤ count →
      Search.take program bound count search = .error (.fault indexOverflow) := by
  have ends : Run.EndsIn _ _ _ (fun bound => search.eval (handlers program.routines bound) [])
      .empty 0 fun made after => made.Sits _ after :=
    tame.endsIn Heap.tidy_empty fun _ member => nomatch member
  obtain ⟨first, outcome, ran, _, stops, results⟩ := ends
  cases outcome with
  | error stop after =>
    refine ⟨first, fun bound count le _ => ?_⟩
    unfold Search.take
    simp only [ran bound le, stops stop after rfl]
  | ok made heap =>
    obtain ⟨rests, tidy, sits⟩ := results made heap rfl
    have idle : ∀ cell, ¬ heap.Running cell := by
      intro cell running
      obtain ⟨_, found⟩ := rests.running.mp running
      exact nomatch found
    obtain ⟨stream, read, shows⟩ := exists_of_eval (ran first (Nat.le_refl first))
    obtain ⟨count, hidden⟩ := not_forall.mp (blocked [] stream read)
    obtain ⟨second, stops⟩ := exists_observe program.tame_routines tidy idle sits count
    cases seen : made.observe (handlers program.routines second) count heap with
    | ok steps after => exact absurd ⟨steps, shows.mp ⟨second, after, seen⟩⟩ hidden
    | error stop after =>
      cases stops stop after seen
      obtain ⟨third, pulled⟩ := Stream.Iterator.exists_takeAfter_eq_error seen
      refine ⟨max first (max second third), fun bound more low high => ?_⟩
      have ended := Stream.Iterator.takeAfter_refines
        (handlers_mono program.routines (show second ≤ bound by omega)) (by simp)
        (pulled [] (show third ≤ bound by omega) (show third ≤ more by omega))
      unfold Search.take
      simp only [ran bound (by omega)]
      exact ended

end Search

namespace Goal

open Search (Blocked)

variable {goal : Goal A δ} {goals : List (Goal A δ)} {start : State A}

/-- Some goals and others after them are calculated one after another. -/
theorem calculateAll_append (goals others : List (Goal A δ)) (search : Search A δ) :
    calculateAll (goals ++ others) search = calculateAll others (calculateAll goals search) := by
  induction goals generalizing search with
  | nil => rw [List.nil_append, calculateAll]
  | cons goal goals later => rw [List.cons_append, calculateAll, calculateAll, later]

/-- What is left of a search by further goals is blocked if the search is. -/
theorem blocked_calculateAll {search : Search A δ} (blocked : Blocked program search)
    (goals : List (Goal A δ)) : Blocked program (calculateAll goals search) := by
  induction goals generalizing search with
  | nil => exact blocked
  | cons goal goals later => exact later (blocked.mapcat _)

/-- A disjunction is blocked by each of its branches. -/
theorem blocked_calculateAny (member : goal ∈ goals)
    (blocked : Blocked program (goal.calculate start)) :
    Blocked program (calculateAny goals start) := by
  induction goals with
  | nil => exact nomatch member
  | cons first goals later =>
    intro scope merged read live
    obtain ⟨shared, one, readShared, readOne, _, liveOne, liveShared⟩ :=
      exists_live_of_read_calculateAny read live
    rcases List.mem_cons.mp member with rfl | member
    · exact blocked (shared :: scope) one readOne liveOne
    · exact later member scope shared readShared liveShared

/-- The search for a goal is blocked where on some way the indices of new variables run out. -/
theorem blocked_of_overflows (full : Overflows program goal start)
    (acyclic : start.substitution.Acyclic) : Blocked program (goal.calculate start) := by
  induction full with
  | here full =>
    intro scope stream read
    rw [calculate, full] at read
    cases read
  | @fresh count notes build vars start next allocated _ blocked =>
    have acyclicNext := (State.substitution_of_allocate? allocated).symm ▸ acyclic
    exact (blocked acyclicNext).congr (read_fresh allocated notes)
  | @conjunction before after goal start middle way reached _ blocked =>
    have come : Brings program (calculateAll before (.unit start)) middle :=
      derivations_brings.2 reached acyclic (Search.brings_unit start)
    have mapped : Blocked program (.mapcat (calculateAll before (.unit start))
        fun state => goal.calculate state) :=
      come.blocked_mapcat (blocked (derivations_acyclic.2 reached acyclic))
    show Blocked program (calculateAll (before ++ goal :: after) (.unit start))
    rw [calculateAll_append, calculateAll]
    exact blocked_calculateAll mapped after
  | disjunction member _ blocked => exact blocked_calculateAny member (blocked acyclic)
  | delay _ blocked => exact Search.blocked_suspend ((blocked acyclic).congr read_routine)

/-- The streams of a goal can be followed however far unless on some way the indices of new
variables run out. -/
theorem blocked_iff_overflows (goal : Goal A δ) (acyclic : start.substitution.Acyclic) :
    Blocked program (goal.calculate start) ↔ Overflows program goal start := by
  refine ⟨fun blocked => ?_, fun full => blocked_of_overflows full acyclic⟩
  by_contra room
  obtain ⟨stream, read, live, _⟩ := exists_calculate goal acyclic room
  exact blocked [] stream read live

end Goal

namespace Point

variable {start before after point : Point A δ}

/-- Where indices run out behind a step of a path, they run out before it. -/
theorem Step.overflowsAll (step : before.Step program after)
    (acyclic : before.state.substitution.Acyclic)
    (full : OverflowsAll program after.pending after.state) :
    OverflowsAll program before.pending before.state := by
  cases step with
  | unify unified =>
    have derivation := (unify?_eq_ok_iff acyclic).mpr unified
    exact overflowsAll_cons.mpr (.inr ⟨_, _, .unify derivation, full⟩)
  | conjunction =>
    rcases overflowsAll_append full with full | ⟨middle, way, each, full⟩
    · exact overflowsAll_cons.mpr (.inl (overflows_conjunction full))
    · exact overflowsAll_cons.mpr (.inr ⟨middle, way, .conjunction each, full⟩)
  | disjunction member =>
    rcases overflowsAll_cons.mp full with full | ⟨middle, way, derivation, full⟩
    · exact overflowsAll_cons.mpr (.inl (.disjunction member full))
    · exact overflowsAll_cons.mpr (.inr ⟨middle, way, .disjunction member derivation, full⟩)
  | fresh allocated =>
    rcases overflowsAll_cons.mp full with full | ⟨middle, way, derivation, full⟩
    · exact overflowsAll_cons.mpr (.inl (.fresh allocated full))
    · exact overflowsAll_cons.mpr (.inr ⟨middle, _, .fresh allocated derivation, full⟩)
  | delay =>
    rcases overflowsAll_cons.mp full with full | ⟨middle, way, derivation, full⟩
    · exact overflowsAll_cons.mpr (.inl (.delay full))
    · exact overflowsAll_cons.mpr (.inr ⟨middle, way, .delay derivation, full⟩)

/-- Where indices run out behind a path, they run out before it. -/
theorem Path.overflowsAll (path : start.Path program point)
    (acyclic : start.state.substitution.Acyclic)
    (full : OverflowsAll program point.pending point.state) :
    OverflowsAll program start.pending start.state := by
  induction path with
  | here => exact full
  | step path step later => exact later (step.overflowsAll (path.grown acyclic).acyclic full)

end Point

namespace Goal

/-- A search with a path to a goal for new variables without room for them is given up. Whatever its
other branches come to, whoever asks for enough answers with bounds that are large enough comes to
the fault for indices that are no words. -/
theorem gives_up_of_path {goal : Goal A δ} {start : State A}
    (acyclic : start.substitution.Acyclic) {point : Point A δ}
    (path : (Point.start goal start).Path program point) {count : UInt64}
    {notes : List (Term A) → List String} {build : List (Term A) → Goal A δ}
    {goals : List (Goal A δ)} (pending : point.pending = .fresh count notes build :: goals)
    (full : point.state.allocate? count = none) :
    ∃ enough, ∀ bound more, enough ≤ bound → enough ≤ more →
      Search.take program bound more (goal.calculate start) = .error (.fault indexOverflow) := by
  have stuck : OverflowsAll program point.pending point.state := by
    rw [pending]
    exact overflowsAll_cons.mpr (.inl (.here full))
  rcases overflowsAll_cons.mp (path.overflowsAll acyclic stuck) with full | ⟨_, _, _, nothing⟩
  · have blocked := (blocked_iff_overflows goal acyclic).mpr full
    exact blocked.exists_take_eq_error (goal.mild acyclic)
  · exact absurd nothing not_overflowsAll_nil

end Goal

end Relational
