import Relational.Proofs.Goal.Path
import Relational.Proofs.Goal.Scope
import Relational.Proofs.Unification.MostGeneral
import Relational.Proofs.Unification.Variables

/-!
# New variables are new

Along every path of a search from a scoped state and a scoped goal, the count of variables is a
bound on everything that the search has come across: the bindings, the goals built and the
variables handed out. Variables are handed out from the count on, so none of them is met before;
and the count is a word that goes up by exactly as many as are handed out, or no goal is built.
-/
namespace Relational

variable {A δ : Type}

/-- A builder more was given as many variables more. -/
theorem Handout.total_concat (handouts : List (Handout A)) (handout : Handout A) :
    total (handouts ++ [handout]) = total handouts + handout.count.toNat := by
  induction handouts with
  | nil => exact Nat.add_comm _ _
  | cons first handouts later =>
    rw [List.cons_append, total, total, later, Nat.add_assoc]

namespace Point

/-- The count of variables bounds everything that a search has come across. -/
structure Scoped (program : Program A δ) (start : State A) (point : Point A δ) : Prop where
  /-- The bindings are about variables below the count. -/
  state : point.state.Scoped
  /-- The count is that of the start and as many as were handed out. -/
  counted : point.state.freshCount.toNat = start.freshCount.toNat + point.handedOut
  /-- The goals that are still to hold are scoped below the count. -/
  pending : ∀ goal ∈ point.pending, goal.Scoped program point.state.freshCount.toNat
  /-- The goals built on the way are scoped below the count. -/
  built : ∀ goal ∈ point.built, goal.Scoped program point.state.freshCount.toNat
  /-- The variables handed out on the way are below the count. -/
  handouts : ∀ handout ∈ point.handouts, ∀ term ∈ handout.vars,
    term.Within (Below point.state.freshCount.toNat)

variable {program : Program A δ} {start : State A} {before after : Point A δ}

/-- A scoped goal and a scoped state are a scoped point. -/
theorem scoped_start {goal : Goal A δ} (state : start.Scoped)
    (bounded : goal.Scoped program start.freshCount.toNat) :
    (Point.start goal start).Scoped program start where
  state := state
  counted := rfl
  pending _ member := List.mem_singleton.mp member ▸ bounded
  built _ member := List.mem_singleton.mp member ▸ bounded
  handouts _ member := nomatch member

/-- A variable has not been met on the way to a point. -/
structure Untouched (program : Program A δ) (point : Point A δ) (index : UInt64) : Prop where
  /-- It is not bound. -/
  key : point.state.substitution.get? index = none
  /-- It is in no term that a variable is bound to. -/
  value : ∀ key term, point.state.substitution.get? key = some term → index ∉ term.vars
  /-- It is in no goal built on the way. -/
  built : ∀ goal ∈ point.built, ¬ goal.Mentions program index
  /-- It is not among the variables handed out on the way. -/
  handouts : ∀ handout ∈ point.handouts, ∀ term ∈ handout.vars, index ∉ term.vars

/-- A variable from the count on has not been met. -/
theorem Scoped.untouched {point : Point A δ} (bounded : point.Scoped program start)
    {index : UInt64} (new : point.state.freshCount.toNat ≤ index.toNat) :
    point.Untouched program index := by
  have apart : ¬ Below point.state.freshCount.toNat index := Nat.not_lt_of_le new
  exact {
    key := Option.eq_none_iff_forall_ne_some.mpr fun _ found => apart (bounded.state.key found)
    value := fun _ _ found appears => apart (bounded.state.value found index appears)
    built := fun goal member mentions => apart (mentions.below_count (bounded.built goal member))
    handouts := fun handout member term inner appears =>
      apart (bounded.handouts handout member term inner index appears) }

variable [BEq A] [Decidable (ReflBEq A)]

/-- Steps keep everything below the count. -/
theorem Step.scoped (step : before.Step program after) (bounded : before.Scoped program start) :
    after.Scoped program start := by
  cases step with
  | unify unified =>
    obtain ⟨goal, goals⟩ := List.forall_mem_cons.mp bounded.pending
    have sides := goal.unify
    exact { bounded with state := bounded.state.unify sides.1 sides.2 unified, pending := goals }
  | conjunction =>
    obtain ⟨goal, goals⟩ := List.forall_mem_cons.mp bounded.pending
    exact { bounded with pending := List.forall_mem_append.mpr ⟨goal.conjunction, goals⟩ }
  | disjunction member =>
    obtain ⟨goal, goals⟩ := List.forall_mem_cons.mp bounded.pending
    exact { bounded with
      pending := List.forall_mem_cons.mpr ⟨goal.disjunction _ member, goals⟩ }
  | delay =>
    obtain ⟨goal, goals⟩ := List.forall_mem_cons.mp bounded.pending
    exact { bounded with
      pending := List.forall_mem_cons.mpr ⟨goal.delay, goals⟩
      built := List.forall_mem_append.mpr
        ⟨bounded.built, List.forall_mem_singleton.mpr goal.delay⟩ }
  | @fresh count notes build rest built earlier next handouts vars allocated =>
    obtain ⟨goal, goals⟩ := List.forall_mem_cons.mp bounded.pending
    obtain ⟨_, _, same, counted⟩ := State.allocate?_eq_some allocated
    have le : earlier.freshCount.toNat ≤ next.freshCount.toNat := by omega
    have weaker : ∀ index, Below earlier.freshCount.toNat index →
        Below next.freshCount.toNat index := fun _ below => below.mono le
    have new := goal.fresh allocated
    have state : next.Scoped := by
      unfold State.Scoped
      rw [same]
      exact Substitution.Within.imp bounded.state weaker
    have before : earlier.freshCount.toNat = start.freshCount.toNat + Handout.total handouts :=
      bounded.counted
    have total : next.freshCount.toNat =
        start.freshCount.toNat + Handout.total (handouts ++ [⟨count, vars⟩]) := by
      rw [Handout.total_concat, ← Nat.add_assoc, ← before, counted]
    have handed : ∀ handout ∈ handouts ++ [⟨count, vars⟩], ∀ term ∈ handout.vars,
        term.Within (Below next.freshCount.toNat) :=
      List.forall_mem_append.mpr
        ⟨fun handout member term inner => (bounded.handouts handout member term inner).imp weaker,
          List.forall_mem_singleton.mpr (State.within_of_allocate? allocated)⟩
    exact {
      state
      counted := total
      pending := List.forall_mem_cons.mpr ⟨new, fun goal member => (goals goal member).mono le⟩
      built := List.forall_mem_append.mpr
        ⟨fun goal member => (bounded.built goal member).mono le, List.forall_mem_singleton.mpr new⟩
      handouts := handed }

/-- Paths keep everything below the count. -/
theorem Path.scoped (path : before.Path program after) (bounded : before.Scoped program start) :
    after.Scoped program start :=
  path.induct (motive := fun point => point.Scoped program start) bounded fun step => step.scoped

end Point

namespace Search

variable {search : Search A δ} {fault : Fault}

/-- A search is given up with a fault, whatever was searched before. -/
def GivesUp (search : Search A δ) (fault : Fault) : Prop :=
  ∀ handlers scope heap, ∃ after, search.eval handlers scope heap = .error (.fault fault) after

/-- A flat map is given up if its source is. -/
theorem GivesUp.mapcat (given : search.GivesUp fault) (body : State A → Search A δ) :
    GivesUp (.mapcat search body) fault := by
  intro handlers scope heap
  obtain ⟨after, raised⟩ := given handlers scope heap
  refine ⟨after, ?_⟩
  rw [Plan.eval]
  show EStateM.bind (search.eval handlers scope) _ heap = _
  rw [EStateM.bind, raised]

/-- A flat map over one state is given up if the search made of that state is. -/
theorem GivesUp.mapcat_unit {body : State A → Search A δ} {state : State A}
    (given : (body state).GivesUp fault) : GivesUp (.mapcat (.unit state) body) fault := by
  intro handlers scope heap
  obtain ⟨cell, allocated, made⟩ : ∃ cell allocated,
      (.unit state : Search A δ).eval handlers scope heap = .ok (.cons state cell) allocated :=
    ⟨_, _, rfl⟩
  obtain ⟨after, raised⟩ := given handlers scope allocated
  refine ⟨after, ?_⟩
  rw [Plan.eval]
  show EStateM.bind (Plan.eval handlers scope (.unit state)) _ heap = _
  rw [EStateM.bind, made]
  show EStateM.bind ((body state).eval handlers scope) _ allocated = _
  rw [EStateM.bind, raised]

end Search

namespace Goal

variable [BEq A] [Decidable (ReflBEq A)]

/-- What is left of a search by further goals is given up if the search is. -/
theorem givesUp_calculateAll {search : Search A δ} {fault : Fault} (goals : List (Goal A δ))
    (given : search.GivesUp fault) : (calculateAll goals search).GivesUp fault := by
  induction goals generalizing search with
  | nil => exact given
  | cons goal goals later => exact later (given.mapcat _)

/-- The search for a conjunction is given up if that for its first goal is. -/
theorem givesUp_conjunction {goal : Goal A δ} {state : State A} {fault : Fault}
    (given : (goal.calculate state).GivesUp fault) (goals : List (Goal A δ)) :
    ((conjunction (goal :: goals)).calculate state).GivesUp fault :=
  givesUp_calculateAll goals (Search.GivesUp.mapcat_unit given)

/-- The search for a goal for new variables is given up if there is no room for them. -/
theorem givesUp_fresh {state : State A} {count : UInt64} (full : state.allocate? count = none)
    (notes : List (Term A) → List String) (build : List (Term A) → Goal A δ) :
    ((fresh count notes build).calculate state).GivesUp indexOverflow := by
  rw [calculate, full]
  exact fun _ _ heap => ⟨heap, rfl⟩

end Goal

namespace Point

variable [BEq A] [Decidable (ReflBEq A)] {program : Program A δ} {start : State A}
  {point : Point A δ}

/-- The variables of a search are accounted for at a point. -/
structure Accounted (program : Program A δ) (start : State A) (point : Point A δ) : Prop where
  /-- The bindings are about variables that have been handed out. -/
  state : point.state.Scoped
  /-- The count is that of the start and as many as were handed out on the way. -/
  counted : point.state.freshCount.toNat = start.freshCount.toNat + point.handedOut
  /-- If there is room for more variables, a goal for them receives as many as it asks for, all
  different and none of them met on the way. -/
  new : ∀ {count : UInt64} {notes : List (Term A) → List String} {build : List (Term A) → Goal A δ}
    {goals : List (Goal A δ)}, point.pending = .fresh count notes build :: goals →
      start.freshCount.toNat + point.handedOut + count.toNat < UInt64.size →
        ∃ (indices : List UInt64) (next : State A),
          point.state.allocate? count = some (indices.map .var, next) ∧
            indices.length = count.toNat ∧ indices.Nodup ∧
              ∀ index ∈ indices, point.Untouched program index
  /-- If there is no room, the search for the goal is given up, and so is the search for it and all
  goals after it. -/
  full : ∀ {count : UInt64} {notes : List (Term A) → List String}
    {build : List (Term A) → Goal A δ} {goals : List (Goal A δ)},
      point.pending = .fresh count notes build :: goals →
        UInt64.size ≤ start.freshCount.toNat + point.handedOut + count.toNat →
          ∃ fault : Fault, fault.message = "Variable indices must fit in usize" ∧
            ((Goal.fresh count notes build).calculate point.state).GivesUp fault ∧
              ((Goal.conjunction point.pending).calculate point.state).GivesUp fault

/-- The variables are accounted for where the count bounds everything. -/
theorem Scoped.accounted (bounded : point.Scoped program start) :
    point.Accounted program start where
  state := bounded.state
  counted := bounded.counted
  new := by
    intro count notes build goals pending room
    rw [← bounded.counted] at room
    obtain ⟨next, allocated⟩ := State.exists_allocate?_eq_some room
    refine ⟨_, next, allocated, State.length_indices _ _, State.nodup_indices room, ?_⟩
    exact fun index member => bounded.untouched ((State.mem_indices room).mp member).1
  full := by
    intro count notes build goals pending beyond
    rw [← bounded.counted] at beyond
    have given := Goal.givesUp_fresh (State.allocate?_eq_none beyond) notes build
    exact ⟨indexOverflow, rfl, given, pending ▸ Goal.givesUp_conjunction given goals⟩

end Point

namespace Goal

variable [BEq A] [Decidable (ReflBEq A)]

/-- New variables are new. On every path of a search from a scoped state and a goal scoped below
its count, a goal for new variables receives ones that are neither in the bindings nor in anything
built or handed out on the way, or the search is given up where their indices are no words. Every
state that the search yields is scoped, and its count is higher by exactly as many variables as were
handed out on a path to it. -/
theorem searches_hand_out_new_variables (program : Program A δ) {goal : Goal A δ} {start : State A}
    (state : start.Scoped) (bounded : goal.Scoped program start.freshCount.toNat) :
    (∀ point, (Point.start goal start).Path program point → point.Accounted program start) ∧
      ∀ answer, goal.Yields program start answer → answer.Scoped ∧
        ∃ stop, (Point.start goal start).Path program stop ∧ stop.pending = [] ∧
          stop.state = answer ∧
            answer.freshCount.toNat = start.freshCount.toNat + stop.handedOut := by
  have accounted : ∀ point, (Point.start goal start).Path program point →
      point.Accounted program start :=
    fun point path => (path.scoped (Point.scoped_start state bounded)).accounted
  refine ⟨accounted, fun answer yields => ?_⟩
  obtain ⟨stop, path, ended, rfl⟩ := exists_path_of_yields yields
  have reached := accounted stop path
  exact ⟨reached.state, stop, path, ended, rfl, reached.counted⟩

/-- A relation that binds `v0` to `f` of a new variable and calls itself comes to itself again with
`v0` bound to `f(v1)`, and `v2`, which it receives then, has not been met. -/
theorem recursive_call_after_binding :
    let build : List (Term Int64) → Goal Int64 Unit := fun vars =>
      .conjunction [.unify (.var 0) (.op "f" vars), .delay ()]
    let relation : Goal Int64 Unit := .fresh 1 (fun _ => []) build
    let program : Program Int64 Unit := fun _ => ⟨[], relation⟩
    let start : State Int64 := ⟨IntMap.empty, 1⟩
    let point : Point Int64 Unit := {
      pending := [relation]
      state := ⟨IntMap.insert IntMap.empty 0 (.op "f" [.var 1]), 2⟩
      handouts := [⟨1, [.var 1]⟩]
      built := [.delay (), relation, build [.var 1], relation] }
    start.Scoped ∧ (Goal.delay ()).Scoped program start.freshCount.toNat ∧
      (Point.start (.delay ()) start).Path program point ∧ point.Untouched program 2 := by
  intro build relation program start point
  have state : start.Scoped := Substitution.within_empty
  have bounded : (Goal.delay ()).Scoped program start.freshCount.toNat := by
    refine ⟨fun count _ => 1 ≤ count, ?_, Nat.le_refl 1⟩
    intro count _ _ from' above room
    refine ⟨⟨?_, ?_⟩, Nat.le_add_left .., trivial⟩
    · intro index appears
      rw [Term.vars_var, List.mem_singleton] at appears
      rw [appears]
      exact Nat.succ_pos _
    · intro index appears
      rw [Term.vars_op, List.mem_flatMap] at appears
      obtain ⟨term, member, appears⟩ := appears
      rw [State.vars_eq_map_indices, List.mem_map] at member
      obtain ⟨other, member, rfl⟩ := member
      rw [Term.vars_var, List.mem_singleton] at appears
      exact appears ▸ ((State.mem_indices room).mp member).2
  have unified : Relational.unify (.var 0) (.op "f" [.var 1]) start.substitution =
      .ok point.state.substitution := unify_eq_ok_of_step (by cbv)
  have allocated : start.allocate? 1 = some ([.var 1], ⟨IntMap.empty, 2⟩) := rfl
  have path : (Point.start (.delay ()) start).Path program point :=
    .step (.step (.step (.step (.step .here .delay) (.fresh allocated)) .conjunction)
      (.unify unified)) .delay
  have accounted := (searches_hand_out_new_variables program state bounded).1 point path
  obtain ⟨indices, next, received, _, _, untouched⟩ := accounted.new rfl (by decide)
  have same : point.state.allocate? 1 = some ([.var 2], ⟨point.state.substitution, 3⟩) := rfl
  rw [same, Option.some.injEq, Prod.mk.injEq] at received
  have member : Term.var 2 ∈ indices.map (.var : UInt64 → Term Int64) :=
    received.1 ▸ List.mem_singleton_self _
  obtain ⟨index, member, this⟩ := List.mem_map.mp member
  cases this
  exact ⟨state, bounded, path, untouched 2 member⟩

end Goal

end Relational
