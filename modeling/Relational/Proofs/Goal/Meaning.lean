import Relational.Goal.Meaning
import Relational.Proofs.Goal.Derivation
import Relational.Proofs.Goal.Variables

/-!
# Derivations and meaning

Every solution of the bindings that a derivation ends with satisfies the goal: the values of the
new variables are the ones that the solution gives to the variables handed out. Conversely, where
a goal holds of a valuation, the goal derives a state with a solution that agrees with the
valuation. The two know the new variables by different indices, so they agree only up to a
relation between variables, which the goals have to respect.
-/
namespace Relational

variable {A δ : Type} [BEq A] [EquivBEq A] {program : Program A δ}

/-- Derivations only add bindings and variables: a solution of the bindings afterwards solves those
before, and no index is given back. -/
theorem derivations_narrow :
    (∀ {goal start stop way}, Derives program goal start stop way → start.substitution.Acyclic →
      start.freshCount.toNat ≤ stop.freshCount.toNat ∧
        ∀ valuation : Valuation A, valuation.Solves stop.substitution →
          valuation.Solves start.substitution) ∧
    ∀ {goals start stop way}, DerivesAll program goals start stop way →
      start.substitution.Acyclic → start.freshCount.toNat ≤ stop.freshCount.toNat ∧
        ∀ valuation : Valuation A, valuation.Solves stop.substitution →
          valuation.Solves start.substitution := by
  apply derivations_induct
  · intro left right state substitution unified acyclic
    have solutions := solves_of_unify acyclic ((unify?_eq_ok_iff acyclic).mp unified)
    exact ⟨Nat.le_refl _, fun valuation solves => ((solutions valuation).mp solves).1⟩
  · exact fun each => each
  · exact fun _ found => found
  · intro count notes build vars start next stop way allocated found acyclic
    obtain ⟨_, _, same, counted⟩ := State.allocate?_eq_some allocated
    obtain ⟨more, narrow⟩ := found (same ▸ acyclic)
    rw [same] at narrow
    exact ⟨by omega, narrow⟩
  · exact fun found => found
  · exact fun _ => ⟨Nat.le_refl _, fun _ solves => solves⟩
  · intro goal goals start middle stop first rest derivation head _ tail acyclic
    obtain ⟨one, narrowHead⟩ := head acyclic
    obtain ⟨two, narrowTail⟩ := tail (derivation.acyclic acyclic)
    exact ⟨Nat.le_trans one two, fun valuation solves => narrowHead _ (narrowTail _ solves)⟩

/-- A goal holds of every solution of the bindings that it derives. New variables get the values
that they have anyway. -/
theorem derivations_hold :
    (∀ {goal start stop way}, Derives program goal start stop way → start.substitution.Acyclic →
      ∀ {scope : List UInt64} {valuation : Valuation A},
        (∀ index ∈ scope, index.toNat < start.freshCount.toNat) →
          valuation.Solves stop.substitution → goal.Holds program scope valuation) ∧
    ∀ {goals start stop way}, DerivesAll program goals start stop way →
      start.substitution.Acyclic → ∀ {scope : List UInt64} {valuation : Valuation A},
        (∀ index ∈ scope, index.toNat < start.freshCount.toNat) →
          valuation.Solves stop.substitution →
            ∀ goal ∈ goals, Goal.Holds program scope valuation goal := by
  apply derivations_induct
  · intro left right state substitution unified acyclic scope valuation _ solves
    have solutions := solves_of_unify acyclic ((unify?_eq_ok_iff acyclic).mp unified)
    exact .unify ((solutions valuation).mp solves).2
  · exact fun each acyclic _ _ known solves => .conjunction (each acyclic known solves)
  · exact fun member found acyclic _ _ known solves =>
      .disjunction member (found acyclic known solves)
  · intro count notes build vars start next stop way allocated found acyclic scope valuation known
      solves
    obtain ⟨room, rfl, same, counted⟩ := State.allocate?_eq_some allocated
    have new : ∀ index, index ∈ State.indices start.freshCount count ↔
        start.freshCount.toNat ≤ index.toNat ∧
          index.toNat < start.freshCount.toNat + count.toNat :=
      fun _ => State.mem_indices room
    have knownNext : ∀ index ∈ State.indices start.freshCount count ++ scope,
        index.toNat < next.freshCount.toNat := by
      intro index there
      rcases List.mem_append.mp there with there | there
      · have place := (new index).mp there
        omega
      · have place := known index there
        omega
    have holds := found (same ▸ acyclic) knownNext solves
    rw [← Valuation.assign_self valuation (State.indices start.freshCount count)] at holds
    refine .fresh (State.length_indices _ _) (State.nodup_indices room) ?_ ?_ holds
    · intro index there inScope
      have place := (new index).mp there
      have before := known index inScope
      omega
    · rw [List.length_map, State.length_indices]
  · exact fun found acyclic _ _ known solves => .delay (found acyclic known solves)
  · exact fun _ _ _ _ _ _ member => nomatch member
  · intro goal goals start middle stop first rest derivation head derivations tail acyclic scope
      valuation known solves other member
    have acyclicMiddle := derivation.acyclic acyclic
    have more := (derivations_narrow.1 derivation acyclic).1
    have narrow := (derivations_narrow.2 derivations acyclicMiddle).2
    rcases List.mem_cons.mp member with rfl | member
    · exact head acyclic known (narrow valuation solves)
    · have knownMiddle : ∀ index ∈ scope, index.toNat < middle.freshCount.toNat := by
        intro index there
        have place := known index there
        omega
      exact tail acyclicMiddle knownMiddle solves other member

namespace Goal

variable {named : (UInt64 → UInt64 → Prop) → δ → δ → Prop}
  {related : UInt64 → UInt64 → Prop} {scope : List UInt64} {goal : Goal A δ}
  {valuation : Valuation A}

/-- Where a goal holds each goal alike holds of every valuation that gives the variables in scope
the same values. -/
theorem Holds.of_agree (holds : goal.Holds program scope valuation)
    (names : NamesAlike program named) {other : Goal A δ} {values : Valuation A}
    (same : goal.Alike named related other)
    (inScope : ∀ one two, related one two → one = two ∧ one ∈ scope)
    (agree : ∀ index ∈ scope, valuation index == values index) :
    other.Holds program scope values := by
  induction holds generalizing related other values with
  | @unify scope valuation left right equated =>
    obtain ⟨_, _, rfl, alikeLeft, alikeRight⟩ := exists_of_alike_unify same
    have paired : ∀ one two, related one two → valuation one == values two := by
      intro one two paired
      obtain ⟨rfl, there⟩ := inScope one two paired
      exact agree one there
    have lefts := Term.bind_beq_of_alike paired alikeLeft
    have rights := Term.bind_beq_of_alike paired alikeRight
    exact .unify (BEq.trans (BEq.symm lefts) (BEq.trans equated rights))
  | conjunction _ each =>
    obtain ⟨others, rfl, pairs⟩ := exists_of_alike_conjunction same
    refine .conjunction fun other member => ?_
    obtain ⟨goal, there, paired⟩ := exists_left_of_forall₂ pairs member
    exact each goal there paired inScope agree
  | disjunction member _ later =>
    obtain ⟨others, rfl, pairs⟩ := exists_of_alike_disjunction same
    obtain ⟨other, there, paired⟩ := exists_right_of_forall₂ pairs member
    exact .disjunction there (later paired inScope agree)
  | @fresh scope indices valuation count notes build new counted distinct unused enough _ later =>
    obtain ⟨notes', build', rfl, builds⟩ := exists_of_alike_fresh same
    refine .fresh counted distinct unused enough ?_
    refine later (builds indices indices counted counted) ?_ ?_
    · intro one two paired
      rcases paired with paired | paired
      · obtain ⟨equal, there⟩ := inScope one two paired
        exact ⟨equal, List.mem_append_right _ there⟩
      · have itself : List.Forall₂ (fun one two => one = two ∧ one ∈ indices) indices indices :=
          List.forall₂_same.mpr fun index there => ⟨rfl, there⟩
        obtain ⟨equal, there⟩ := List.forall₂_zip itself paired
        exact ⟨equal, List.mem_append_left _ there⟩
    · intro index there
      by_cases assigned : index ∈ indices
      · rw [Valuation.assign_eq_of_mem distinct (enough.trans counted.symm) assigned]
        exact BEq.rfl
      · rw [Valuation.assign_of_notMem assigned, Valuation.assign_of_notMem assigned]
        exact agree index ((List.mem_append.mp there).resolve_left assigned)
  | delay _ later =>
    obtain ⟨other, rfl, paired⟩ := exists_of_alike_delay same
    exact .delay (later (names _ _ _ paired) inScope agree)

end Goal

/-- What solves the bindings of a state depends only on the values of the variables handed out. -/
def State.Settled (state : State A) : Prop :=
  ∀ first second : Valuation A,
    (∀ index, index.toNat < state.freshCount.toNat → first index = second index) →
      first.Solves state.substitution → second.Solves state.substitution

/-- The state of a search goes with a valuation: the bindings have a solution that gives variables
handed out the values that the valuation gives to the variables in scope they are related to. -/
structure Fits (related : UInt64 → UInt64 → Prop) (scope : List UInt64) (valuation : Valuation A)
    (state : State A) (solution : Valuation A) : Prop where
  /-- The bindings are acyclic. -/
  acyclic : state.substitution.Acyclic
  /-- They are about the variables handed out. -/
  settled : state.Settled
  /-- The solution solves them. -/
  solves : solution.Solves state.substitution
  /-- Related variables are in scope. -/
  inScope : ∀ {one two : UInt64}, related one two → one ∈ scope
  /-- They are related to variables handed out. -/
  handedOut : ∀ {one two : UInt64}, related one two → two.toNat < state.freshCount.toNat
  /-- The two valuations agree on them. -/
  agree : ∀ one two, related one two → valuation one == solution two

namespace Fits

variable {related : UInt64 → UInt64 → Prop} {scope : List UInt64}
  {valuation solution : Valuation A} {state next stop : State A}

/-- Terms that are alike to terms with one value unify. The terms only have variables that are
handed out, so values of others do not matter. -/
theorem exists_unify? (fits : Fits related scope valuation state solution)
    {left right left' right' : Term A} (alikeLeft : left.Alike related left')
    (alikeRight : right.Alike related right') (equated : valuation.Equates left right) :
    ∃ after, unify? left' right' state.substitution = some (.ok after) ∧
      Fits related scope valuation { state with substitution := after } solution := by
  have lefts := Term.bind_beq_of_alike fits.agree alikeLeft
  have rights := Term.bind_beq_of_alike fits.agree alikeRight
  have equates : solution.Equates left' right' :=
    BEq.trans (BEq.symm lefts) (BEq.trans equated rights)
  cases unified : unify left' right' state.substitution with
  | error reason =>
    exact absurd equates (not_equates_of_unify fits.acyclic unified solution fits.solves)
  | ok after =>
    have solutions := solves_of_unify fits.acyclic unified
    refine ⟨after, (unify?_eq_ok_iff fits.acyclic).mpr unified, ?_⟩
    refine ⟨fits.acyclic.unify unified, ?_, (solutions solution).mpr ⟨fits.solves, equates⟩,
      fits.inScope, fits.handedOut, fits.agree⟩
    intro first second same solves
    obtain ⟨before, equal⟩ := (solutions first).mp solves
    have known : ∀ {term other : Term A}, term.Alike related other →
        other.bind first = other.bind second := by
      intro term other alike
      apply Term.bind_congr
      intro index appears
      obtain ⟨_, paired⟩ := Term.exists_related_of_alike alike index appears
      exact same index (fits.handedOut paired)
    refine (solutions second).mpr ⟨fits.settled first second same before, ?_⟩
    unfold Valuation.Equates at equal ⊢
    rw [← known alikeLeft, ← known alikeRight]
    exact equal

/-- New variables of both sides are given the same values. -/
theorem allocate (fits : Fits related scope valuation state solution) {count : UInt64}
    {vars : List (Term A)} (allocated : state.allocate? count = some (vars, next))
    {indices : List UInt64} {values : List (Term A)} (counted : indices.length = count.toNat)
    (distinct : indices.Nodup) (new : ∀ index ∈ indices, index ∉ scope)
    (enough : values.length = count.toNat) :
    Fits (fun one two => related one two ∨
        (one, two) ∈ indices.zip (State.indices state.freshCount count))
      (indices ++ scope) (valuation.assign indices values) next
      (solution.assign (State.indices state.freshCount count) values) := by
  obtain ⟨room, _, same, more⟩ := State.allocate?_eq_some allocated
  have later : ∀ {index : UInt64}, index.toNat < state.freshCount.toNat →
      index ∉ State.indices state.freshCount count := by
    intro index before there
    have place := (State.mem_indices room).mp there
    omega
  refine ⟨same ▸ fits.acyclic, ?_, ?_, ?_, ?_, ?_⟩
  · intro first second agree solves
    rw [same] at solves ⊢
    exact fits.settled first second (fun index before => agree index (by omega)) solves
  · rw [same]
    refine fits.settled solution _ (fun index before => ?_) fits.solves
    exact (Valuation.assign_of_notMem (later before)).symm
  · intro one two paired
    rcases paired with paired | paired
    · exact List.mem_append_right _ (fits.inScope paired)
    · exact List.mem_append_left _ (List.of_mem_zip paired).1
  · intro one two paired
    rcases paired with paired | paired
    · have before := fits.handedOut paired
      omega
    · have place := (State.mem_indices room).mp (List.of_mem_zip paired).2
      omega
  · intro one two paired
    rcases paired with paired | paired
    · have old : one ∉ indices := fun there => new one there (fits.inScope paired)
      have outside := later (fits.handedOut paired)
      rw [Valuation.assign_of_notMem old, Valuation.assign_of_notMem outside]
      exact fits.agree one two paired
    · rw [Valuation.assign_eq_of_mem_zip distinct (State.nodup_indices room)
        (enough.trans counted.symm) (enough.trans (State.length_indices _ _).symm) paired]
      exact BEq.rfl

omit [EquivBEq A] in
/-- What goes with a valuation of more variables goes with it before these were new. -/
theorem forget {more : UInt64 → UInt64 → Prop} {indices : List UInt64} {values : List (Term A)}
    (inner : Fits more (indices ++ scope) (valuation.assign indices values) stop solution)
    (fits : ∀ {one two : UInt64}, related one two → more one two ∧ one ∈ scope)
    (new : ∀ index ∈ indices, index ∉ scope) : Fits related scope valuation stop solution where
  acyclic := inner.acyclic
  settled := inner.settled
  solves := inner.solves
  inScope paired := (fits paired).2
  handedOut paired := inner.handedOut (fits paired).1
  agree := by
    intro one two paired
    obtain ⟨paired, there⟩ := fits paired
    have old : one ∉ indices := fun again => new one again there
    have agree := inner.agree one two paired
    rw [Valuation.assign_of_notMem old] at agree
    exact agree

end Fits

namespace Goal

variable {named : (UInt64 → UInt64 → Prop) → δ → δ → Prop}
  {related : UInt64 → UInt64 → Prop} {scope : List UInt64} {valuation : Valuation A}

/-- From every state that goes with a valuation, a goal alike derives another one that does. -/
def Followed (program : Program A δ)
    (named : (UInt64 → UInt64 → Prop) → δ → δ → Prop) (scope : List UInt64)
    (valuation : Valuation A) (goal : Goal A δ) : Prop :=
  ∀ {related : UInt64 → UInt64 → Prop} {other : Goal A δ} {state : State A}
    {solution : Valuation A}, goal.Alike named related other →
      Fits related scope valuation state solution → ¬ Overflows program other state →
        ∃ stop way later, Derives program other state stop way ∧
          Fits related scope valuation stop later

/-- Goals that can be followed one by one can be followed one after another. -/
theorem exists_derivesAll {goals others : List (Goal A δ)}
    (followed : ∀ goal ∈ goals, Followed program named scope valuation goal)
    (pairs : List.Forall₂ (Alike named related) goals others) {state : State A}
    {solution : Valuation A} (fits : Fits related scope valuation state solution)
    (room : ¬ OverflowsAll program others state) :
    ∃ stop way later, DerivesAll program others state stop way ∧
      Fits related scope valuation stop later := by
  induction pairs generalizing state solution with
  | nil => exact ⟨state, [], solution, .nil, fits⟩
  | @cons goal other goals others paired _ rest =>
    obtain ⟨middle, first, between, head, fits⟩ :=
      followed goal (List.mem_cons_self ..) paired fits (not_overflows_head room)
    obtain ⟨stop, last, later, tail, fits⟩ :=
      rest (fun goal member => followed goal (List.mem_cons_of_mem _ member)) fits
        (not_overflows_tail room head)
    exact ⟨stop, first ++ last, later, .cons head tail, fits⟩

/-- Where a goal holds of a valuation, every goal alike derives a state that goes with the
valuation, unless the indices of new variables run out. -/
theorem Holds.followed {goal : Goal A δ} (names : NamesAlike program named)
    (holds : goal.Holds program scope valuation) :
    Followed program named scope valuation goal := by
  induction holds with
  | unify equated =>
    intro related other state solution same fits _
    obtain ⟨_, _, rfl, alikeLeft, alikeRight⟩ := exists_of_alike_unify same
    obtain ⟨after, unified, fits⟩ := fits.exists_unify? alikeLeft alikeRight equated
    exact ⟨_, [], solution, .unify unified, fits⟩
  | conjunction _ each =>
    intro related other state solution same fits room
    obtain ⟨others, rfl, pairs⟩ := exists_of_alike_conjunction same
    obtain ⟨stop, way, later, derivation, fits⟩ := exists_derivesAll each pairs fits
      fun full => room (overflows_conjunction full)
    exact ⟨stop, way, later, .conjunction derivation, fits⟩
  | disjunction member _ followed =>
    intro related other state solution same fits room
    obtain ⟨others, rfl, pairs⟩ := exists_of_alike_disjunction same
    obtain ⟨other, there, paired⟩ := exists_right_of_forall₂ pairs member
    obtain ⟨stop, way, later, derivation, fits⟩ := followed paired fits
      fun full => room (.disjunction there full)
    exact ⟨stop, way, later, .disjunction there derivation, fits⟩
  | @fresh scope indices valuation count notes build values counted distinct new enough _
      followed =>
    intro related other state solution same fits room
    obtain ⟨notes', build', rfl, builds⟩ := exists_of_alike_fresh same
    cases allocated : state.allocate? count with
    | none => exact absurd (.here allocated) room
    | some entry =>
      obtain ⟨vars, next⟩ := entry
      obtain ⟨_, rfl, _⟩ := State.allocate?_eq_some allocated
      have paired := builds indices (State.indices state.freshCount count) counted
        (State.length_indices _ _)
      obtain ⟨stop, way, later, derivation, inner⟩ := followed paired
        (fits.allocate allocated counted distinct new enough) fun full =>
          room (.fresh allocated full)
      exact ⟨stop, _, later, .fresh allocated derivation,
        inner.forget (fun paired => ⟨.inl paired, fits.inScope paired⟩) new⟩
  | delay _ followed =>
    intro related other state solution same fits room
    obtain ⟨other, rfl, paired⟩ := exists_of_alike_delay same
    obtain ⟨stop, way, later, derivation, fits⟩ := followed (names _ _ _ paired) fits
      fun full => room (.delay full)
    exact ⟨stop, way, later, .delay derivation, fits⟩

end Goal

end Relational
