import Relational.Goal.Meaning
import Relational.Proofs.Goal.Derivation
import Relational.Proofs.Goal.Variables

/-!
# Goals below a count

A goal that is scoped below a count is scoped below every higher one, and so are its parts and what
builders and names make of it. So whatever stands in a scoped goal is below the count.
-/
namespace Relational

variable {A δ : Type}

/-- A variable among the first so many is among the first ones of a higher count. -/
theorem Below.mono {count more : Nat} {index : UInt64} (below : Below count index)
    (le : count ≤ more) : Below more index :=
  Nat.lt_of_lt_of_le below le

/-- What is inside stays inside where there is more room. -/
theorem Term.Within.imp {inside outside : UInt64 → Prop} {term : Term A}
    (within : term.Within inside) (weaker : ∀ index, inside index → outside index) :
    term.Within outside :=
  fun index appears => weaker index (within index appears)

/-- What is inside stays inside where there is more room. -/
theorem Substitution.Within.imp {inside outside : UInt64 → Prop} {bindings : Substitution A}
    (within : bindings.Within inside) (weaker : ∀ index, inside index → outside index) :
    bindings.Within outside :=
  ⟨fun found => weaker _ (within.key found), fun found => (within.value found).imp weaker⟩

namespace Goal

section Names

variable {named : Nat → δ → Prop} {count : Nat}

/-- Some goals are scoped if each of them is. -/
theorem scopedAll_iff {goals : List (Goal A δ)} :
    ScopedAll named count goals ↔ ∀ goal ∈ goals, goal.ScopedWith named count := by
  induction goals with
  | nil => exact ⟨fun _ _ member => (nomatch member), fun _ => trivial⟩
  | cons goal goals later =>
    rw [ScopedAll, later, List.forall_mem_cons]

/-- A goal that is scoped below a count is scoped below a higher one, if that holds of names. -/
theorem ScopedWith.mono {others : Nat → δ → Prop} {goal : Goal A δ} {more : Nat}
    (bounded : goal.ScopedWith named count) (le : count ≤ more)
    (names : ∀ {less more : Nat} {name : δ}, less ≤ more → named less name → others more name) :
    goal.ScopedWith others more := by
  induction goal using Goal.induct generalizing count more with
  | unify left right =>
    have weaker : ∀ index, Below count index → Below more index :=
      fun _ below => below.mono le
    exact ⟨bounded.1.imp weaker, bounded.2.imp weaker⟩
  | conjunction goals each =>
    have all := scopedAll_iff.mp bounded
    exact scopedAll_iff.mpr fun goal member => each goal member (all goal member) le
  | disjunction goals each =>
    have all := scopedAll_iff.mp bounded
    exact scopedAll_iff.mpr fun goal member => each goal member (all goal member) le
  | fresh asked notes build each =>
    intro start above room
    exact each _ (bounded start (Nat.le_trans le above) room) (Nat.le_refl _)
  | delay name => exact names le bounded

end Names

variable {program : Program A δ} {count more : Nat} {goal : Goal A δ} {goals : List (Goal A δ)}

/-- A goal that is scoped below a count is scoped below a higher one. -/
theorem Scoped.mono (bounded : goal.Scoped program count) (le : count ≤ more) :
    goal.Scoped program more := by
  obtain ⟨named, names, bounded⟩ := bounded
  refine ⟨fun bound name => ∃ less ≤ bound, named less name, ?_, bounded.mono le ?_⟩
  · rintro bound name ⟨less, within, holds⟩
    exact (names less name holds).mono within fun le holds => ⟨_, le, holds⟩
  · exact fun le holds => ⟨_, le, holds⟩

/-- The terms of an equation are below the count where it is scoped. -/
theorem Scoped.unify {left right : Term A}
    (bounded : (Goal.unify left right).Scoped program count) :
    left.Within (Below count) ∧ right.Within (Below count) := by
  obtain ⟨_, _, bounded⟩ := bounded
  exact bounded

/-- The goals of a conjunction are scoped where it is. -/
theorem Scoped.conjunction (bounded : (Goal.conjunction goals).Scoped program count) :
    ∀ goal ∈ goals, goal.Scoped program count := by
  obtain ⟨named, names, bounded⟩ := bounded
  exact fun goal member => ⟨named, names, scopedAll_iff.mp bounded goal member⟩

/-- The goals of a disjunction are scoped where it is. -/
theorem Scoped.disjunction (bounded : (Goal.disjunction goals).Scoped program count) :
    ∀ goal ∈ goals, goal.Scoped program count := by
  obtain ⟨named, names, bounded⟩ := bounded
  exact fun goal member => ⟨named, names, scopedAll_iff.mp bounded goal member⟩

/-- The goal that a name stands for is scoped where the name is. -/
theorem Scoped.delay {name : δ} (bounded : (Goal.delay name).Scoped program count) :
    (program name).goal.Scoped program count := by
  obtain ⟨named, names, bounded⟩ := bounded
  exact ⟨named, names, names count name bounded⟩

/-- The goal built for new variables is scoped below the count after them. -/
theorem Scoped.fresh {state next : State A} {asked : UInt64} {vars : List (Term A)}
    {notes : List (Term A) → List String} {build : List (Term A) → Goal A δ}
    (bounded : (Goal.fresh asked notes build).Scoped program state.freshCount.toNat)
    (allocated : state.allocate? asked = some (vars, next)) :
    (build vars).Scoped program next.freshCount.toNat := by
  obtain ⟨room, rfl, _, counted⟩ := State.allocate?_eq_some allocated
  obtain ⟨named, names, bounded⟩ := bounded
  have built := bounded state.freshCount (Nat.le_refl _) room
  rw [← counted, State.vars_eq_map_indices] at built
  exact ⟨named, names, built⟩

/-- Every variable that stands in a scoped goal is below the count. -/
theorem Mentions.below_count {index : UInt64} (mentions : goal.Mentions program index)
    (bounded : goal.Scoped program count) : Below count index := by
  induction mentions with
  | left appears =>
    obtain ⟨_, _, bounded⟩ := bounded
    exact bounded.1 _ appears
  | right appears =>
    obtain ⟨_, _, bounded⟩ := bounded
    exact bounded.2 _ appears
  | conjunction member _ below => exact below (bounded.conjunction _ member)
  | disjunction member _ below => exact below (bounded.disjunction _ member)
  | delay _ below => exact below bounded.delay

end Goal

/-- Variables that are handed out are below the count after them. -/
theorem State.within_of_allocate? {state next : State A} {asked : UInt64} {vars : List (Term A)}
    (allocated : state.allocate? asked = some (vars, next)) :
    ∀ term ∈ vars, term.Within (Below next.freshCount.toNat) := by
  obtain ⟨room, rfl, _, counted⟩ := State.allocate?_eq_some allocated
  intro term member index appears
  obtain ⟨other, there, rfl⟩ := List.mem_map.mp member
  rw [Term.vars_var, List.mem_singleton] at appears
  have between := (State.mem_indices room).mp (appears ▸ there)
  unfold Below
  omega

end Relational
