import Mathlib.Data.List.Nodup
import Relational.Goal.Meaning
import Relational.Proofs.Term.Equality
import Relational.State
import Relational.Substitution

/-!
# New variables

Variables that are handed out are told apart by their indices, which go on from the count of those
before them. Terms that are alike have one value under valuations that agree on related variables,
so it only matters which values new variables get and not which ones they are.
-/
namespace Relational

variable {A : Type}

namespace State

/-- Variables are handed out by their indices. -/
theorem vars_eq_map_indices (start count : UInt64) :
    (vars start count : List (Term A)) = (indices start count).map .var := by
  rw [vars, indices, List.map_map]
  rfl

/-- There are as many indices as are asked for. -/
@[simp]
theorem length_indices (start count : UInt64) : (indices start count).length = count.toNat := by
  rw [indices, List.length_map, List.length_range]

/-- An index that is handed out is as far from the first one as its position says. -/
theorem toNat_index {start count : UInt64} (room : start.toNat + count.toNat < UInt64.size)
    {position : Nat} (within : position < count.toNat) :
    (start + UInt64.ofNat position).toNat = start.toNat + position := by
  have small : position < UInt64.size := by omega
  have sum : start.toNat + position < UInt64.size := by omega
  rw [UInt64.toNat_add, UInt64.toNat_ofNat_of_lt' small]
  exact Nat.mod_eq_of_lt sum

/-- The indices handed out are those from the first one up to the count afterwards. -/
theorem mem_indices {start count : UInt64} (room : start.toNat + count.toNat < UInt64.size)
    {index : UInt64} : index ∈ indices start count ↔
      start.toNat ≤ index.toNat ∧ index.toNat < start.toNat + count.toNat := by
  rw [indices, List.mem_map]
  constructor
  · rintro ⟨position, within, rfl⟩
    have within := List.mem_range.mp within
    rw [toNat_index room within]
    omega
  · rintro ⟨above, below⟩
    have within : index.toNat - start.toNat < count.toNat := by omega
    refine ⟨index.toNat - start.toNat, List.mem_range.mpr within, UInt64.toNat_inj.mp ?_⟩
    rw [toNat_index room within]
    omega

/-- No index is handed out twice. -/
theorem nodup_indices {start count : UInt64} (room : start.toNat + count.toNat < UInt64.size) :
    (indices start count).Nodup := by
  refine List.Nodup.map_on ?_ List.nodup_range
  intro one withinOne other withinOther same
  have places := congrArg UInt64.toNat same
  rw [toNat_index room (List.mem_range.mp withinOne),
    toNat_index room (List.mem_range.mp withinOther)] at places
  omega

/-- Handing out variables counts them and does nothing else, and there has to be room for them. -/
theorem allocate?_eq_some {state next : State A} {count : UInt64} {vars : List (Term A)}
    (allocated : state.allocate? count = some (vars, next)) :
    state.freshCount.toNat + count.toNat < UInt64.size ∧
      vars = (indices state.freshCount count).map .var ∧
      next.substitution = state.substitution ∧
      next.freshCount.toNat = state.freshCount.toNat + count.toNat := by
  obtain ⟨stop, advanced, same⟩ := Option.map_eq_some_iff.mp allocated
  cases same
  unfold advance? at advanced
  by_cases room : state.freshCount.toNat + count.toNat < UInt64.size
  · rw [if_pos room, Option.some.injEq] at advanced
    refine ⟨room, vars_eq_map_indices _ _, rfl, ?_⟩
    show stop.toNat = _
    rw [← advanced, UInt64.toNat_add]
    exact Nat.mod_eq_of_lt room
  · rw [if_neg room] at advanced
    exact nomatch advanced

/-- Variables are handed out if there is room for them. -/
theorem exists_allocate?_eq_some {state : State A} {count : UInt64}
    (room : state.freshCount.toNat + count.toNat < UInt64.size) : ∃ next,
      state.allocate? count = some ((indices state.freshCount count).map .var, next) := by
  refine ⟨{ state with freshCount := state.freshCount + count }, ?_⟩
  rw [allocate?, advance?, if_pos room, Option.map_some, vars_eq_map_indices]

/-- Variables are not handed out if there is no room for them. -/
theorem allocate?_eq_none {state : State A} {count : UInt64}
    (full : UInt64.size ≤ state.freshCount.toNat + count.toNat) : state.allocate? count = none := by
  rw [allocate?, advance?, if_neg (Nat.not_lt_of_le full), Option.map_none]

end State

namespace Valuation

variable {valuation : Valuation A} {indices : List UInt64}

/-- The first of some variables gets the first of some values. -/
theorem assign_cons (index : UInt64) (value : Term A) (values : List (Term A)) (other : UInt64) :
    valuation.assign (index :: indices) (value :: values) other =
      if other = index then value else valuation.assign indices values other := by
  unfold assign
  rw [List.zip_cons_cons, List.lookup_cons]
  by_cases same : other = index
  · rw [if_pos same, same, beq_self_eq_true]
    rfl
  · rw [if_neg same, beq_eq_false_iff_ne.mpr same]

/-- Variables that get no new value keep the old one. -/
theorem assign_of_notMem {values : List (Term A)} {index : UInt64} (absent : index ∉ indices) :
    valuation.assign indices values index = valuation index := by
  induction indices generalizing values with
  | nil => rfl
  | cons first indices later =>
    cases values with
    | nil => rfl
    | cons value values =>
      have apart : index ≠ first := List.ne_of_not_mem_cons absent
      rw [assign_cons, if_neg apart]
      exact later fun there => absent (List.mem_cons_of_mem _ there)

/-- Different variables get the values in order. -/
theorem map_assign {values : List (Term A)} (distinct : indices.Nodup)
    (enough : values.length = indices.length) :
    indices.map (valuation.assign indices values) = values := by
  induction indices generalizing values with
  | nil => exact (List.eq_nil_of_length_eq_zero enough).symm
  | cons first indices later =>
    obtain ⟨value, values, rfl⟩ : ∃ value rest, values = value :: rest :=
      List.exists_cons_of_length_pos (by rw [enough]; exact Nat.succ_pos _)
    obtain ⟨absent, distinct⟩ := List.nodup_cons.mp distinct
    have behind : indices.map (valuation.assign (first :: indices) (value :: values)) =
        indices.map (valuation.assign indices values) := by
      apply List.map_congr_left
      intro index there
      have apart : index ≠ first := fun same => absent (same ▸ there)
      rw [assign_cons, if_neg apart]
    rw [List.map_cons, assign_cons, if_pos rfl, behind,
      later distinct (Nat.succ.inj enough)]

/-- Variables that get the values they have elsewhere have these values. -/
theorem assign_map (values : Valuation A) {index : UInt64} (there : index ∈ indices) :
    valuation.assign indices (indices.map values) index = values index := by
  induction indices with
  | nil => exact nomatch there
  | cons first indices later =>
    rw [List.map_cons, assign_cons]
    by_cases same : index = first
    · rw [if_pos same, same]
    · rw [if_neg same]
      exact later ((List.mem_cons.mp there).resolve_left same)

/-- Giving variables the values they have changes nothing. -/
theorem assign_self (valuation : Valuation A) (indices : List UInt64) :
    valuation.assign indices (indices.map valuation) = valuation := by
  funext index
  by_cases there : index ∈ indices
  · exact assign_map valuation there
  · exact assign_of_notMem there

/-- Variables that get new values get the same ones whatever their old values are. -/
theorem assign_eq_of_mem {other : Valuation A} {values : List (Term A)}
    (distinct : indices.Nodup) (enough : values.length = indices.length) {index : UInt64}
    (there : index ∈ indices) :
    valuation.assign indices values index = other.assign indices values index := by
  have same : indices.map (valuation.assign indices values) =
      indices.map (other.assign indices values) :=
    (map_assign distinct enough).trans (map_assign distinct enough).symm
  exact List.map_inj_left.mp same index there

/-- Variables at one place of two lists get one value. -/
theorem assign_eq_of_mem_zip {other : Valuation A} {others : List UInt64} {values : List (Term A)}
    (distinct : indices.Nodup) (distinctOthers : others.Nodup)
    (enough : values.length = indices.length) (enoughOthers : values.length = others.length)
    {index index' : UInt64} (member : (index, index') ∈ indices.zip others) :
    valuation.assign indices values index = other.assign others values index' := by
  obtain ⟨place, within, here⟩ := List.mem_iff_getElem.mp member
  rw [List.getElem_zip, Prod.mk.injEq] at here
  rw [List.length_zip] at within
  have one : place < indices.length := by omega
  have two : place < others.length := by omega
  have first : (indices.map (valuation.assign indices values))[place]? = values[place]? :=
    congrArg (·[place]?) (map_assign distinct enough)
  have second : (others.map (other.assign others values))[place]? = values[place]? :=
    congrArg (·[place]?) (map_assign distinctOthers enoughOthers)
  rw [List.getElem?_map, List.getElem?_eq_getElem one, here.1] at first
  rw [List.getElem?_map, List.getElem?_eq_getElem two, here.2] at second
  exact Option.some.inj (first.trans second.symm)

end Valuation

namespace Term

variable {related : UInt64 → UInt64 → Prop}

/-- Argument lists are alike if they are so one by one. -/
theorem alikeAll_iff_forall₂ (lefts rights : List (Term A)) :
    AlikeAll related lefts rights ↔ List.Forall₂ (Alike related) lefts rights := by
  induction lefts generalizing rights with
  | nil => cases rights <;> simp [AlikeAll]
  | cons left lefts later =>
    cases rights with
    | nil => simp [AlikeAll]
    | cons right rights => rw [AlikeAll, List.forall₂_cons, later]

/-- What holds of related variables and of atoms, and of operations whenever it holds of their
arguments one by one, holds of all terms that are alike. -/
theorem alike_induct {motive : Term A → Term A → Prop}
    (var : ∀ left right, related left right → motive (.var left) (.var right))
    (atom : ∀ payload, motive (.atom payload) (.atom payload))
    (op : ∀ symbol lefts rights, List.Forall₂ motive lefts rights →
      motive (.op symbol lefts) (.op symbol rights))
    {left right : Term A} (alike : left.Alike related right) : motive left right := by
  induction left using induct generalizing right with
  | var index =>
    cases right with
    | var other => exact var index other (by rwa [Alike] at alike)
    | atom | op => rw [Alike] at alike <;> exact alike.elim
  | atom payload =>
    cases right with
    | atom other =>
      rw [Alike] at alike
      exact alike ▸ atom payload
    | var | op => rw [Alike] at alike <;> exact alike.elim
  | op symbol lefts each =>
    cases right with
    | op other rights =>
      rw [Alike, alikeAll_iff_forall₂] at alike
      obtain ⟨rfl, alike⟩ := alike
      apply op
      rw [List.forall₂_iff_get] at alike ⊢
      exact ⟨alike.1, fun place one two =>
        each _ (List.get_mem _ _) (alike.2 place one two)⟩
    | var | atom => rw [Alike] at alike <;> exact alike.elim

/-- Terms that are alike have one value under valuations that agree on related variables. -/
theorem bind_beq_of_alike [BEq A] [ReflBEq A] {first second : Valuation A}
    (agree : ∀ left right, related left right → first left == second right)
    {left right : Term A} (alike : left.Alike related right) :
    left.bind first == right.bind second := by
  refine @alike_induct A related (fun left right => left.bind first == right.bind second)
    ?_ ?_ ?_ left right alike
  · intro left right paired
    rw [bind_var, bind_var]
    exact agree left right paired
  · exact fun payload => BEq.rfl
  · intro symbol lefts rights each
    rw [bind_op, bind_op, op_beq_op, List.forall₂_map_left_iff, List.forall₂_map_right_iff]
    exact ⟨rfl, each⟩

/-- Some variable is related to each variable of a term, where another term is alike to it. -/
theorem exists_related_of_alike {left right : Term A} (alike : left.Alike related right) :
    ∀ index ∈ right.vars, ∃ other, related other index := by
  refine @alike_induct A related (fun _ right => ∀ index ∈ right.vars, ∃ other, related other index)
    ?_ ?_ ?_ left right alike
  · intro left right paired index appears
    rw [vars_var, List.mem_singleton] at appears
    exact ⟨left, appears ▸ paired⟩
  · intro payload index appears
    rw [vars_atom] at appears
    exact nomatch appears
  · intro symbol lefts rights each index appears
    rw [vars_op, List.mem_flatMap] at appears
    obtain ⟨argument, member, appears⟩ := appears
    obtain ⟨_, _, found⟩ := exists_left_of_forall₂ each member
    exact found index appears

end Term

namespace Goal

variable {δ : Type} {named : (UInt64 → UInt64 → Prop) → δ → δ → Prop}
  {related : UInt64 → UInt64 → Prop} {other : Goal A δ}

/-- Lists of goals are alike if they are so one by one. -/
theorem alikeAll_iff_forall₂ (goals others : List (Goal A δ)) :
    AlikeAll named related goals others ↔ List.Forall₂ (Alike named related) goals others := by
  induction goals generalizing others with
  | nil => cases others <;> simp [AlikeAll]
  | cons goal goals later =>
    cases others with
    | nil => simp [AlikeAll]
    | cons other others => rw [AlikeAll, List.forall₂_cons, later]

/-- What is like an equation is an equation. -/
theorem exists_of_alike_unify {left right : Term A}
    (alike : Alike named related (.unify left right) other) : ∃ left' right',
      other = .unify left' right' ∧ left.Alike related left' ∧ right.Alike related right' := by
  cases other with
  | unify left' right' => exact ⟨left', right', rfl, alike⟩
  | _ => exact alike.elim

/-- What is like a conjunction is a conjunction. -/
theorem exists_of_alike_conjunction {goals : List (Goal A δ)}
    (alike : Alike named related (.conjunction goals) other) :
    ∃ others, other = .conjunction others ∧ List.Forall₂ (Alike named related) goals others := by
  cases other with
  | conjunction others => exact ⟨others, rfl, (alikeAll_iff_forall₂ goals others).mp alike⟩
  | _ => exact alike.elim

/-- What is like a disjunction is a disjunction. -/
theorem exists_of_alike_disjunction {goals : List (Goal A δ)}
    (alike : Alike named related (.disjunction goals) other) :
    ∃ others, other = .disjunction others ∧ List.Forall₂ (Alike named related) goals others := by
  cases other with
  | disjunction others => exact ⟨others, rfl, (alikeAll_iff_forall₂ goals others).mp alike⟩
  | _ => exact alike.elim

/-- What is like a goal for new variables is such a goal, with a builder that builds like goals for
other variables. -/
theorem exists_of_alike_fresh {count : UInt64} {notes : List (Term A) → List String}
    {build : List (Term A) → Goal A δ}
    (alike : Alike named related (.fresh count notes build) other) :
    ∃ notes' build', other = .fresh count notes' build' ∧ ∀ ones others : List UInt64,
      ones.length = count.toNat → others.length = count.toNat →
        Alike named (fun one other => related one other ∨ (one, other) ∈ ones.zip others)
          (build (ones.map .var)) (build' (others.map .var)) := by
  cases other with
  | fresh count' notes' build' =>
    obtain ⟨rfl, builds⟩ := alike
    exact ⟨notes', build', rfl, builds⟩
  | _ => exact alike.elim

/-- What is like a delayed goal is a delayed goal. -/
theorem exists_of_alike_delay {name : δ} (alike : Alike named related (.delay name) other) :
    ∃ name', other = .delay name' ∧ named related name name' := by
  cases other with
  | delay name' => exact ⟨name', rfl, alike⟩
  | _ => exact alike.elim

end Goal

end Relational
