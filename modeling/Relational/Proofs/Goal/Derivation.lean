import Relational.Goal.Search
import Relational.Proofs.Unification.MostGeneral

/-!
# Derivations of goals

Goals are trees below their delayed parts, so what holds of a goal whenever it holds of the goals
it is made of holds of every goal. Along a derivation bindings stay acyclic, and what can be said
of a goal in a conjunction is said from the states that the goals before it lead to.
-/
namespace Relational

/-!
## Derivations

A derivation shows that a state is an answer of a goal without saying when a search comes to
it: a disjunction holds by one of its goals, a conjunction by its goals from left to right, a
delayed goal by the goal that its name stands for. A derivation keeps the runs of variables
handed out on its way, so that they can be told apart from those of other ways. Where the indices
of new variables run out on some way there is no derivation and no search comes past it.
-/

variable {A δ : Type}

/-- A run of variables handed out at once. -/
structure Allocation where
  /-- The first index. -/
  start : UInt64
  /-- How many variables there are. -/
  count : UInt64

mutual

/-- A goal holds from one state to another, handing out these variables on the way. -/
inductive Derives [BEq A] [Decidable (ReflBEq A)] (program : Program A δ) :
    Goal A δ → State A → State A → List Allocation → Prop where
  /-- Two terms unify. -/
  | unify {left right : Term A} {state : State A} {substitution : Substitution A}
    (unified : unify? left right state.substitution = some (.ok substitution)) :
    Derives program (.unify left right) state { state with substitution } []
  /-- Every goal of a conjunction holds, one after another. -/
  | conjunction {goals : List (Goal A δ)} {start stop : State A} {way : List Allocation}
    (each : DerivesAll program goals start stop way) :
    Derives program (.conjunction goals) start stop way
  /-- One goal of a disjunction holds. -/
  | disjunction {goals : List (Goal A δ)} {goal : Goal A δ} {start stop : State A}
    {way : List Allocation} (member : goal ∈ goals)
    (derivation : Derives program goal start stop way) :
    Derives program (.disjunction goals) start stop way
  /-- The goal built for new variables holds. -/
  | fresh {count : UInt64} {notes : List (Term A) → List String}
    {build : List (Term A) → Goal A δ} {vars : List (Term A)} {start next stop : State A}
    {way : List Allocation} (allocated : start.allocate? count = some (vars, next))
    (derivation : Derives program (build vars) next stop way) :
    Derives program (.fresh count notes build) start stop (⟨start.freshCount, count⟩ :: way)
  /-- The goal that a name stands for holds. -/
  | delay {name : δ} {start stop : State A} {way : List Allocation}
    (derivation : Derives program (program name).goal start stop way) :
    Derives program (.delay name) start stop way

/-- Goals hold one after another. -/
inductive DerivesAll [BEq A] [Decidable (ReflBEq A)] (program : Program A δ) :
    List (Goal A δ) → State A → State A → List Allocation → Prop where
  /-- No goals hold without a change. -/
  | nil {state : State A} : DerivesAll program [] state state []
  /-- The first goal holds and the others hold from there. -/
  | cons {goal : Goal A δ} {goals : List (Goal A δ)} {start middle stop : State A}
    {first rest : List Allocation} (head : Derives program goal start middle first)
    (tail : DerivesAll program goals middle stop rest) :
    DerivesAll program (goal :: goals) start stop (first ++ rest)

end

/-- On some way from a state the indices of new variables run out. -/
inductive Overflows [BEq A] [Decidable (ReflBEq A)] (program : Program A δ) :
    Goal A δ → State A → Prop where
  /-- There is no room for the new variables. -/
  | here {count : UInt64} {notes : List (Term A) → List String}
    {build : List (Term A) → Goal A δ} {start : State A} (full : start.allocate? count = none) :
    Overflows program (.fresh count notes build) start
  /-- The indices run out for the goal built for new variables. -/
  | fresh {count : UInt64} {notes : List (Term A) → List String}
    {build : List (Term A) → Goal A δ} {vars : List (Term A)} {start next : State A}
    (allocated : start.allocate? count = some (vars, next))
    (inner : Overflows program (build vars) next) :
    Overflows program (.fresh count notes build) start
  /-- The indices run out for a goal of a conjunction, once the goals before it hold. -/
  | conjunction {before after : List (Goal A δ)} {goal : Goal A δ} {start middle : State A}
    {way : List Allocation} (reached : DerivesAll program before start middle way)
    (inner : Overflows program goal middle) :
    Overflows program (.conjunction (before ++ goal :: after)) start
  /-- The indices run out for a goal of a disjunction. -/
  | disjunction {goals : List (Goal A δ)} {goal : Goal A δ} {start : State A}
    (member : goal ∈ goals) (inner : Overflows program goal start) :
    Overflows program (.disjunction goals) start
  /-- The indices run out for the goal that a name stands for. -/
  | delay {name : δ} {start : State A} (inner : Overflows program (program name).goal start) :
    Overflows program (.delay name) start

/-! ## Induction on goals and derivations -/

/-- What passes from the parts of goals to the goals holds of every goal. The goals that names
stand for are not parts. -/
theorem Goal.induct {motive : Goal A δ → Prop}
    (unify : ∀ left right, motive (.unify left right))
    (conjunction : ∀ goals, (∀ goal ∈ goals, motive goal) → motive (.conjunction goals))
    (disjunction : ∀ goals, (∀ goal ∈ goals, motive goal) → motive (.disjunction goals))
    (fresh : ∀ count notes build, (∀ vars, motive (build vars)) →
      motive (.fresh count notes build))
    (delay : ∀ name, motive (.delay name)) (goal : Goal A δ) : motive goal :=
  @Goal.rec A δ motive (fun goals => ∀ goal ∈ goals, motive goal)
    unify conjunction disjunction fresh delay (fun _ member => nomatch member)
    (fun _ _ first rest goal member => by
      cases member with
      | head => exact first
      | tail _ later => exact rest goal later)
    goal

/-- The state after variables are handed out has the same bindings. -/
theorem State.substitution_of_allocate? {state next : State A} {count : UInt64}
    {vars : List (Term A)} (allocated : state.allocate? count = some (vars, next)) :
    next.substitution = state.substitution := by
  obtain ⟨stop, _, same⟩ := Option.map_eq_some_iff.mp allocated
  cases same
  rfl

variable [BEq A] [Decidable (ReflBEq A)] {program : Program A δ}

/-- What passes from the parts of derivations to the derivations holds of every derivation, of one
goal and of several. -/
theorem derivations_induct {holds : Goal A δ → State A → State A → List Allocation → Prop}
    {holdsAll : List (Goal A δ) → State A → State A → List Allocation → Prop}
    (unify : ∀ {left right state substitution},
      unify? left right state.substitution = some (.ok substitution) →
      holds (.unify left right) state { state with substitution } [])
    (conjunction : ∀ {goals start stop way}, holdsAll goals start stop way →
      holds (.conjunction goals) start stop way)
    (disjunction : ∀ {goals goal start stop way}, goal ∈ goals → holds goal start stop way →
      holds (.disjunction goals) start stop way)
    (fresh : ∀ {count notes build vars start next stop way},
      start.allocate? count = some (vars, next) → holds (build vars) next stop way →
      holds (.fresh count notes build) start stop (⟨start.freshCount, count⟩ :: way))
    (delay : ∀ {name start stop way}, holds (program name).goal start stop way →
      holds (.delay name) start stop way)
    (nil : ∀ {state}, holdsAll [] state state [])
    (cons : ∀ {goal goals start middle stop first rest}, Derives program goal start middle first →
      holds goal start middle first → DerivesAll program goals middle stop rest →
      holdsAll goals middle stop rest → holdsAll (goal :: goals) start stop (first ++ rest)) :
    (∀ {goal start stop way}, Derives program goal start stop way → holds goal start stop way) ∧
      ∀ {goals start stop way}, DerivesAll program goals start stop way →
        holdsAll goals start stop way := by
  constructor
  · exact @Derives.rec A δ _ _ program (fun goal start stop way _ => holds goal start stop way)
      (fun goals start stop way _ => holdsAll goals start stop way) unify
      (fun _ each => conjunction each) (fun member _ found => disjunction member found)
      (fun allocated _ found => fresh allocated found) (fun _ found => delay found) nil
      (fun head tail first rest => cons head first tail rest)
  · exact @DerivesAll.rec A δ _ _ program (fun goal start stop way _ => holds goal start stop way)
      (fun goals start stop way _ => holdsAll goals start stop way) unify
      (fun _ each => conjunction each) (fun member _ found => disjunction member found)
      (fun allocated _ found => fresh allocated found) (fun _ found => delay found) nil
      (fun head tail first rest => cons head first tail rest)

/-- Derivations keep bindings acyclic, those of one goal and those of several. -/
theorem derivations_acyclic :
    (∀ {goal start stop way}, Derives program goal start stop way →
      start.substitution.Acyclic → stop.substitution.Acyclic) ∧
    ∀ {goals start stop way}, DerivesAll program goals start stop way →
      start.substitution.Acyclic → stop.substitution.Acyclic := by
  apply derivations_induct
  · intro left right state substitution unified acyclic
    exact acyclic.unify ((unify?_eq_ok_iff acyclic).mp unified)
  · exact fun each => each
  · exact fun _ found => found
  · intro count notes build vars start next stop way allocated found acyclic
    exact found (State.substitution_of_allocate? allocated ▸ acyclic)
  · exact fun found => found
  · exact fun acyclic => acyclic
  · exact fun _ first _ rest acyclic => rest (first acyclic)

/-- A derivation keeps bindings acyclic. -/
theorem Derives.acyclic {goal : Goal A δ} {start stop : State A} {way : List Allocation}
    (derivation : Derives program goal start stop way) (acyclic : start.substitution.Acyclic) :
    stop.substitution.Acyclic :=
  derivations_acyclic.1 derivation acyclic

/-- On some way through several goals the indices of new variables run out. -/
def OverflowsAll (program : Program A δ) (goals : List (Goal A δ)) (start : State A) : Prop :=
  ∃ before goal after middle way, goals = before ++ goal :: after ∧
    DerivesAll program before start middle way ∧ Overflows program goal middle

/-- Without goals no indices run out. -/
theorem not_overflowsAll_nil {start : State A} : ¬ OverflowsAll program [] start := by
  rintro ⟨before, goal, after, _, _, nothing, _⟩
  simp at nothing

/-- Indices run out for the first of several goals, or for the others from a state that the first
one leads to. -/
theorem overflowsAll_cons {goal : Goal A δ} {goals : List (Goal A δ)} {start : State A} :
    OverflowsAll program (goal :: goals) start ↔ Overflows program goal start ∨
      ∃ middle way, Derives program goal start middle way ∧ OverflowsAll program goals middle := by
  constructor
  · rintro ⟨before, other, after, last, way, same, reached, full⟩
    cases reached with
    | nil =>
      cases same
      exact .inl full
    | cons head tail =>
      cases same
      exact .inr ⟨_, _, head, _, other, after, last, _, rfl, tail, full⟩
  · rintro (full | ⟨middle, way, head, before, other, after, last, further, rfl, tail, full⟩)
    · exact ⟨[], goal, goals, start, [], rfl, .nil, full⟩
    · exact ⟨goal :: before, other, after, last, _, rfl, .cons head tail, full⟩

/-- Indices run out for some goals and others after them if they do for the first ones, or for the
others from a state that the first ones lead to. -/
theorem overflowsAll_append {goals others : List (Goal A δ)} {start : State A}
    (full : OverflowsAll program (goals ++ others) start) : OverflowsAll program goals start ∨
      ∃ middle way, DerivesAll program goals start middle way ∧
        OverflowsAll program others middle := by
  induction goals generalizing start with
  | nil => exact .inr ⟨start, [], .nil, full⟩
  | cons goal goals later =>
    rcases overflowsAll_cons.mp full with here | ⟨middle, way, head, behind⟩
    · exact .inl (overflowsAll_cons.mpr (.inl here))
    · rcases later behind with there | ⟨last, further, tail, there⟩
      · exact .inl (overflowsAll_cons.mpr (.inr ⟨middle, way, head, there⟩))
      · exact .inr ⟨last, _, .cons head tail, there⟩

/-- Where there is room for several goals there is room for the first one. -/
theorem not_overflows_head {goal : Goal A δ} {goals : List (Goal A δ)} {start : State A}
    (room : ¬ OverflowsAll program (goal :: goals) start) : ¬ Overflows program goal start :=
  fun full => room (overflowsAll_cons.mpr (.inl full))

/-- Where there is room for several goals there is room for the later ones, from each state that
the first one leads to. -/
theorem not_overflows_tail {goal : Goal A δ} {goals : List (Goal A δ)} {start middle : State A}
    {way : List Allocation} (room : ¬ OverflowsAll program (goal :: goals) start)
    (derivation : Derives program goal start middle way) :
    ¬ OverflowsAll program goals middle :=
  fun full => room (overflowsAll_cons.mpr (.inr ⟨middle, way, derivation, full⟩))

/-- There is room for a conjunction where there is room for its goals. -/
theorem overflows_conjunction {goals : List (Goal A δ)} {start : State A}
    (full : OverflowsAll program goals start) : Overflows program (.conjunction goals) start := by
  obtain ⟨before, goal, after, middle, way, rfl, reached, full⟩ := full
  exact .conjunction reached full

end Relational
