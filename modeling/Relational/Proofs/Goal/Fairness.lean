import Relational.Proofs.Goal.Search

/-!
# Answers and derivations

A goal yields a state after finitely many pulls exactly if it derives the state. From left to
right every state seen among the first steps is derived, by induction on how many steps are seen
and for each number on the goal. From right to left the stream of a goal emits what it derives, by
induction on the derivation: no branch is kept from its answers by another one that has endlessly
many or none at all.
-/
namespace Relational

open Search (Finds Brings)

variable {A δ : Type} [BEq A] [Decidable (ReflBEq A)] {program : Program A δ}

namespace Goal

section Branches

variable {count : Nat} {state answer : State A} {goals : List (Goal A δ)}

/-- The streams of a branch and of the branches after it are merged. -/
theorem read_calculateAny_cons (goal : Goal A δ)
    {scope : List (Unshared (State A) Event (δ × State A))}
    {first shared : Unshared (State A) Event (δ × State A)}
    (readShared : (calculateAny goals state).read (Search.reading program) scope = some shared)
    (readFirst : (goal.calculate state).read (Search.reading program) (shared :: scope) =
      some first) :
    (calculateAny (goal :: goals) state).read (Search.reading program) scope =
      first.mergeWith (Search.reading program) (.known shared) := by
  show ((calculateAny goals state).read _ scope).bind (fun shared =>
    ((goal.calculate state).read _ (shared :: scope)).bind fun first =>
      (some shared).bind fun second => first.mergeWith _ (.known second)) = _
  rw [readShared, Option.bind_some, readFirst, Option.bind_some, Option.bind_some]

/-- The stream of a branch and of branches after it is a merge of theirs. -/
theorem exists_of_read_calculateAny {goal : Goal A δ}
    {scope : List (Unshared (State A) Event (δ × State A))}
    {merged : Unshared (State A) Event (δ × State A)}
    (read : (calculateAny (goal :: goals) state).read (Search.reading program) scope =
      some merged) :
    ∃ shared first, (calculateAny goals state).read (Search.reading program) scope = some shared ∧
      (goal.calculate state).read (Search.reading program) (shared :: scope) = some first ∧
        first.mergeWith (Search.reading program) (.known shared) = some merged := by
  obtain ⟨shared, readShared, read⟩ := Option.bind_eq_some_iff.mp read
  obtain ⟨first, readFirst, read⟩ := Option.bind_eq_some_iff.mp read
  obtain ⟨_, same, made⟩ := Option.bind_eq_some_iff.mp read
  cases same
  exact ⟨shared, first, readShared, readFirst, made⟩

/-- Where the stream of some branches can be followed, so can those of the first branch and of the
branches after it. -/
theorem exists_live_of_read_calculateAny {goal : Goal A δ}
    {scope : List (Unshared (State A) Event (δ × State A))}
    {merged : Unshared (State A) Event (δ × State A)}
    (read : (calculateAny (goal :: goals) state).read (Search.reading program) scope =
      some merged) (live : merged.Live (Search.reading program)) :
    ∃ shared first, (calculateAny goals state).read (Search.reading program) scope = some shared ∧
      (goal.calculate state).read (Search.reading program) (shared :: scope) = some first ∧
        first.mergeWith (Search.reading program) (.known shared) = some merged ∧
          first.Live (Search.reading program) ∧ shared.Live (Search.reading program) := by
  obtain ⟨shared, first, readShared, readFirst, made⟩ := exists_of_read_calculateAny read
  obtain ⟨liveFirst, other, forced, liveShared⟩ :=
    live.of_mergeWith (Search.reading_fixed program) made
  rw [(Search.reading_fixed program).force] at forced
  cases forced
  exact ⟨shared, first, readShared, readFirst, made, liveFirst, liveShared⟩

/-- A disjunction finds what its branches find. -/
theorem finds_calculateAny {good : Goal A δ → State A → Prop}
    (finds : ∀ goal ∈ goals, Finds program count (goal.calculate state) (good goal)) :
    Finds program count (calculateAny goals state) fun answer =>
      ∃ goal ∈ goals, good goal answer := by
  induction goals with
  | nil => exact Search.finds_empty
  | cons goal goals later =>
    intro scope
    have findsLater := later fun other member => finds other (List.mem_cons_of_mem _ member)
    obtain ⟨shared, readShared, others, seenShared, fineShared⟩ := findsLater scope
    obtain ⟨first, readFirst, ones, seenFirst, fineFirst⟩ :=
      finds goal (List.mem_cons_self ..) (shared :: scope)
    have seenKnown := (Unshared.observe_known (Search.reading_fixed program) shared
      (count + 1)).trans seenShared
    obtain ⟨merged, made, seen⟩ :=
      Unshared.observe_mergeWith (Search.reading_fixed program) seenFirst seenKnown
    refine ⟨merged, (read_calculateAny_cons goal readShared readFirst).trans made, _, seen, ?_⟩
    intro answer member
    rcases Steps.mem_of_mem_alternate (List.mem_of_mem_take member) with member | member
    · exact ⟨goal, List.mem_cons_self .., fineFirst answer member⟩
    · obtain ⟨other, there, fine⟩ := fineShared answer member
      exact ⟨other, List.mem_cons_of_mem _ there, fine⟩

/-- A disjunction brings what one of its branches brings. -/
theorem brings_calculateAny {goal : Goal A δ} (member : goal ∈ goals)
    (brings : Brings program (goal.calculate state) answer) :
    Brings program (calculateAny goals state) answer := by
  induction goals with
  | nil => exact nomatch member
  | cons first goals later =>
    intro scope stream read live
    obtain ⟨shared, one, readShared, readOne, made, liveOne, liveShared⟩ :=
      exists_live_of_read_calculateAny read live
    have forced : (Search.reading program).force (.known shared) = some shared :=
      (Search.reading_fixed program).force (.known shared)
    apply (live.emits_mergeWith (Search.reading_fixed program) made forced).mpr
    rcases List.mem_cons.mp member with rfl | member
    · exact .inl (brings (shared :: scope) one readOne liveOne)
    · exact .inr (later member scope shared readShared liveShared)

end Branches

section Parts

/-- A goal for new variables is read as the goal built for them. -/
theorem read_fresh {start next : State A} {count : UInt64} {vars : List (Term A)}
    {build : List (Term A) → Goal A δ} (allocated : start.allocate? count = some (vars, next))
    (notes : List (Term A) → List String)
    (scope : List (Unshared (State A) Event (δ × State A))) :
    ((fresh count notes build).calculate start).read (Search.reading program) scope =
      ((build vars).calculate next).read (Search.reading program) scope := by
  rw [calculate_fresh allocated]
  exact Search.read_reportAll _ scope

/-- The routine of a delayed goal is read as the goal that the name stands for. -/
theorem read_routine {name : δ} {start : State A}
    (scope : List (Unshared (State A) Event (δ × State A))) :
    (program.routines (name, start)).read (Search.reading program) scope =
      ((program name).goal.calculate start).read (Search.reading program) scope :=
  Search.read_reportAll _ scope

end Parts

section Sequences

variable {good : State A → Prop} {search : Search A δ}

/-- A conjunction finds what its goals derive one after another, if each of them finds only what it
derives. -/
theorem finds_calculateAll {count : Nat} {goals : List (Goal A δ)}
    (each : ∀ goal ∈ goals, ∀ {start : State A}, start.substitution.Acyclic →
      ¬ Overflows program goal start → Finds program count (goal.calculate start) fun answer =>
        ∃ way, Derives program goal start answer way)
    (finds : Finds program count search good)
    (fine : ∀ state, good state → state.substitution.Acyclic ∧ ¬ OverflowsAll program goals state) :
    Finds program count (calculateAll goals search) fun answer =>
      ∃ state, good state ∧ ∃ way, DerivesAll program goals state answer way := by
  induction goals generalizing search good with
  | nil => exact finds.imp fun state here => ⟨state, here, [], .nil⟩
  | cons goal goals later =>
    have mapped := finds.mapcat fun state here =>
      each goal (List.mem_cons_self ..) (fine state here).1 (not_overflows_head (fine state here).2)
    have found := later (fun other member => each other (List.mem_cons_of_mem _ member)) mapped
      fun state => by
        rintro ⟨start, here, way, derivation⟩
        exact ⟨derivation.acyclic (fine start here).1,
          not_overflows_tail (fine start here).2 derivation⟩
    refine found.imp fun answer => ?_
    rintro ⟨middle, ⟨state, here, way, derivation⟩, rest, derivations⟩
    exact ⟨state, here, _, .cons derivation derivations⟩

end Sequences

/-- The search for a goal finds only what the goal derives, however far it is followed, unless the
indices of new variables run out: below a delayed part one step less is followed, and every other
part is a smaller goal. -/
theorem finds_calculate (count : Nat) (goal : Goal A δ) {start : State A}
    (acyclic : start.substitution.Acyclic) (room : ¬ Overflows program goal start) :
    Finds program count (goal.calculate start) fun answer =>
      ∃ way, Derives program goal start answer way := by
  induction count using Nat.strong_induction_on generalizing goal start with
  | _ count fewer =>
    induction goal using Goal.induct generalizing start with
    | unify left right =>
      show Finds program count (equate left right start) _
      unfold equate
      cases unified : Relational.unify left right start.substitution with
      | ok substitution =>
        exact Search.finds_unit ⟨[], .unify ((unify?_eq_ok_iff acyclic).mpr unified)⟩
      | error reason => exact Search.finds_empty
    | conjunction goals each =>
      have begun : Finds program count (.unit start) (· = start) := Search.finds_unit rfl
      have found := finds_calculateAll each begun fun state same =>
        same ▸ ⟨acyclic, fun full => room (overflows_conjunction full)⟩
      refine found.imp fun answer => ?_
      rintro ⟨state, rfl, way, derivation⟩
      exact ⟨way, .conjunction derivation⟩
    | disjunction goals each =>
      have found := finds_calculateAny fun goal member =>
        each goal member acyclic fun full => room (.disjunction member full)
      refine found.imp fun answer => ?_
      rintro ⟨goal, member, way, derivation⟩
      exact ⟨way, .disjunction member derivation⟩
    | fresh more notes build each =>
      cases allocated : start.allocate? more with
      | none => exact absurd (.here allocated) room
      | some entry =>
        have acyclicNext := (State.substitution_of_allocate? allocated).symm ▸ acyclic
        have found := each entry.1 acyclicNext fun full => room (.fresh allocated full)
        refine (found.congr (read_fresh allocated notes)).imp fun answer => ?_
        rintro ⟨way, derivation⟩
        exact ⟨_, .fresh allocated derivation⟩
    | delay name =>
      apply Search.finds_suspend
      intro less same
      have found := fewer less (by omega) (program name).goal acyclic fun full =>
        room (.delay full)
      refine (found.congr read_routine).imp fun answer => ?_
      rintro ⟨way, derivation⟩
      exact ⟨way, .delay derivation⟩

/-- The search for a goal brings what the goal derives. -/
theorem derivations_brings :
    (∀ {goal start answer way}, Derives program goal start answer way →
      start.substitution.Acyclic → Brings program (goal.calculate start) answer) ∧
    ∀ {goals start answer way}, DerivesAll program goals start answer way →
      start.substitution.Acyclic → ∀ {search : Search A δ}, Brings program search start →
        Brings program (calculateAll goals search) answer := by
  apply derivations_induct
  · intro left right state substitution unified acyclic
    show Brings program (equate left right state) _
    unfold equate
    rw [(unify?_eq_ok_iff acyclic).mp unified]
    exact Search.brings_unit _
  · intro goals start answer way each acyclic
    exact each acyclic (Search.brings_unit start)
  · intro goals goal start answer way member brings acyclic
    exact brings_calculateAny member (brings acyclic)
  · intro count notes build vars start next answer way allocated brings acyclic
    have acyclicNext := (State.substitution_of_allocate? allocated).symm ▸ acyclic
    exact (brings acyclicNext).congr (read_fresh allocated notes)
  · intro name start answer way brings acyclic
    exact Search.brings_suspend ((brings acyclic).congr read_routine)
  · intro state acyclic search brings
    exact brings
  · intro goal goals start middle answer first rest derivation head _ tail acyclic search brings
    exact tail (derivation.acyclic acyclic) (brings.mapcat (head acyclic))

/-- The search for a goal makes a stream that can be followed however far and that emits exactly
what the goal derives, unless the indices of new variables run out. -/
theorem exists_calculate (goal : Goal A δ) {start : State A}
    (acyclic : start.substitution.Acyclic) (room : ¬ Overflows program goal start) :
    ∃ stream, (goal.calculate start).read (Search.reading program) [] = some stream ∧
      stream.Live (Search.reading program) ∧
        ∀ answer, stream.Emits (Search.reading program) answer ↔
          ∃ way, Derives program goal start answer way := by
  obtain ⟨stream, read, live, derived⟩ :=
    Search.live_of_finds (fun count => finds_calculate count goal acyclic room) []
  refine ⟨stream, read, live, fun answer => ⟨derived answer, ?_⟩⟩
  rintro ⟨way, derivation⟩
  exact derivations_brings.1 derivation acyclic [] stream read live

/-- A goal yields a state after finitely many pulls if and only if it derives the state, from
acyclic bindings and unless the indices of new variables run out: also where other branches have
endlessly many answers or never come to one. -/
theorem yields_iff_derives (program : Program A δ) (goal : Goal A δ) {start : State A}
    (acyclic : start.substitution.Acyclic) (room : ¬ Overflows program goal start)
    (answer : State A) :
    goal.Yields program start answer ↔ ∃ way, Derives program goal start answer way := by
  obtain ⟨stream, read, _, emits⟩ := exists_calculate goal acyclic room
  rw [← emits answer]
  constructor
  · intro yields
    obtain ⟨other, read', emitted⟩ := Search.mem_take_iff.mp yields
    rw [read, Option.some.injEq] at read'
    exact read' ▸ emitted
  · exact fun emitted => Search.mem_take_iff.mpr ⟨stream, read, emitted⟩

/-- Beside a delayed goal with endlessly many answers an equation still comes to its answer. -/
theorem answer_beside_endless_answers :
    let program : Program Int64 Unit :=
      fun _ => ⟨[], .disjunction [.unify (.var 1) (.var 1), .delay ()]⟩
    let goal : Goal Int64 Unit := .disjunction [.delay (), .unify (.var 0) (.atom 5)]
    let start : State Int64 := ⟨IntMap.empty, 2⟩
    start.substitution.Acyclic ∧ ¬ Overflows program goal start ∧
      goal.Yields program start ⟨IntMap.insert IntMap.empty 0 (.atom 5), 2⟩ := by
  intro program goal start
  have room : ∀ {other state}, Overflows program other state →
      other ∉ [goal, (program ()).goal, .delay (), .unify (.var 0) (.atom 5),
        .unify (.var 1) (.var 1)] := by
    intro other state full
    induction full with
    | here => simp [goal, program]
    | fresh => simp [goal, program]
    | conjunction => simp [goal, program]
    | delay inner later => exact absurd (by simp) later
    | disjunction member inner later =>
      intro there
      apply later
      simp only [goal, program, List.mem_cons, Goal.disjunction.injEq, reduceCtorEq,
        List.not_mem_nil, or_false] at there
      rcases there with rfl | rfl
      all_goals
        simp only [List.mem_cons, List.not_mem_nil, or_false] at member
        rcases member with rfl | rfl <;> simp
  have stepped : Unification.Equation.step start.substitution ⟨.var 0, .atom 5, 0⟩ =
      .bound (IntMap.insert IntMap.empty 0 (.atom 5)) := by cbv
  have unified : unify? (.var 0) (.atom 5) start.substitution =
      some (.ok (IntMap.insert IntMap.empty 0 (.atom 5))) := by
    rw [unify?, Unification.solve?, stepped]
    show Unification.solve? (IntMap.insert IntMap.empty 0 (.atom 5)) [] = _
    rw [Unification.solve?]
  have derived : Derives program goal start ⟨IntMap.insert IntMap.empty 0 (.atom 5), 2⟩ [] :=
    .disjunction (by simp) (.unify unified)
  have fits : ¬ Overflows program goal start := fun full => room full (List.mem_cons_self ..)
  exact ⟨Substitution.acyclic_empty, fits,
    (yields_iff_derives program goal Substitution.acyclic_empty fits _).mpr ⟨[], derived⟩⟩

end Goal

end Relational
