import Mathlib.Data.FinEnum
import Mathlib.Data.Fintype.Card
import Relational.Proofs.IntMap.Contents
import Relational.Proofs.Term.Equality
import Relational.Substitution

/-!
# Resolving terms under acyclic bindings

Acyclic bindings lead down: from a bound variable one comes to fewer bound variables than there
are keys, and to fewer with every binding crossed. So walking, resolving and the occurs check
all end within the bound given by the size of the substitution. Resolving replaces every
variable by its value (`Acyclic.reify_eq_bind`), the occurs check says exactly whether a
variable appears in the resolved term (`Acyclic.occurs?_eq`), and a variable that does not may
be bound without closing a cycle (`Acyclic.insert`).
-/
namespace Relational

universe u

variable {A : Type u}

namespace Term

/-- Where every variable of a term has a replacement, so has the term. -/
theorem bind?_eq_some {replace? : UInt64 → Option (Term A)} {replace : UInt64 → Term A}
    {term : Term A} (each : ∀ index ∈ term.vars, replace? index = some (replace index)) :
    term.bind? replace? = some (term.bind replace) := by
  induction term using induct with
  | var index =>
    rw [bind?, bind_var]
    exact each index (by simp)
  | atom payload => rw [bind?, bind_atom]
  | op symbol arguments inner =>
    have all : bindAll? replace? arguments = some (arguments.map (bind replace)) := by
      have within : ∀ argument ∈ arguments,
          argument.bind? replace? = some (argument.bind replace) :=
        fun argument member => inner argument member fun index inside =>
          each index (vars_subset_of_mem member inside)
      clear inner each
      induction arguments with
      | nil => rfl
      | cons argument arguments ih =>
        rw [bindAll?, within argument (List.mem_cons_self ..)]
        rw [ih fun other member => within other (List.mem_cons_of_mem _ member)]
        rfl
    rw [bind?, all, bind_op]
    rfl

/-- A replacement of variables goes through a term variable by variable. -/
theorem bind?_bind?_var (replace? : UInt64 → Option (Term A)) (term : Term A) :
    term.bind? replace? = term.bind? fun index => (var index).bind? replace? := by
  simp only [bind?]

/-- Where a test is decided for every variable of a term, so is whether it holds of one. -/
theorem anyVar?_eq_some {test? : UInt64 → Option Bool} {test : UInt64 → Bool} {term : Term A}
    (each : ∀ index ∈ term.vars, test? index = some (test index)) :
    term.anyVar? test? = some (term.vars.any test) := by
  induction term using induct with
  | var index =>
    rw [anyVar?, each index (by simp)]
    simp
  | atom payload =>
    rw [anyVar?]
    simp
  | op symbol arguments inner =>
    rw [anyVar?, vars_op]
    have within : ∀ argument ∈ arguments,
        argument.anyVar? test? = some (argument.vars.any test) :=
      fun argument member => inner argument member fun index inside =>
        each index (vars_subset_of_mem member inside)
    clear inner each
    induction arguments with
    | nil => rfl
    | cons argument arguments ih =>
      rw [anyVarOf?, ih fun other member => within other (List.mem_cons_of_mem _ member)]
      rw [List.flatMap_cons, List.any_append]
      cases later : (arguments.flatMap vars).any test with
      | false =>
        rw [Bool.or_false]
        exact within argument (List.mem_cons_self ..)
      | true =>
        rw [Bool.or_true]

end Term

namespace Substitution

variable {bindings : Substitution A}

/-- Ways remain where bindings are added. -/
theorem Reaches.extend {after : Substitution A} (extends_ : bindings.Extends after)
    {start stop : UInt64} (way : bindings.Reaches start stop) : after.Reaches start stop := by
  induction way with
  | direct bound appears => exact .direct (extends_ _ _ bound) appears
  | trans _ _ first second => exact first.trans second

/-- The bound variables. -/
def keys (bindings : Substitution A) : Set UInt64 := {index | (bindings.get? index).isSome}

/-- How many bound variables a variable reaches. -/
noncomputable def depth (bindings : Substitution A) (index : UInt64) : Nat :=
  {other | other ∈ bindings.keys ∧ bindings.Reaches index other}.ncard

/-- A bound variable reaches fewer bound variables than there are. -/
theorem Acyclic.depth_lt_size (acyclic : bindings.Acyclic) {index : UInt64}
    (bound : index ∈ bindings.keys) : bindings.depth index < bindings.size := by
  rw [IntMap.size_eq_ncard]
  apply Set.ncard_lt_ncard _ (Set.toFinite _)
  refine ⟨fun other ahead => ahead.1, fun all => ?_⟩
  exact acyclic index (all bound).2

/-- Every binding crossed leaves fewer bound variables to reach. -/
theorem Acyclic.depth_lt_depth (acyclic : bindings.Acyclic) {index other : UInt64}
    {term : Term A} (bound : bindings.get? index = some term) (appears : other ∈ term.vars)
    (key : other ∈ bindings.keys) : bindings.depth other < bindings.depth index := by
  apply Set.ncard_lt_ncard _ (Set.toFinite _)
  refine ⟨fun last ahead => ⟨ahead.1, (Reaches.direct bound appears).trans ahead.2⟩,
    fun all => ?_⟩
  exact acyclic other (all ⟨key, .direct bound appears⟩).2

/-- What holds of a variable whenever it holds of every variable of the term it is bound to,
holds of all variables. -/
theorem Acyclic.induct (acyclic : bindings.Acyclic) {motive : UInt64 → Prop}
    (step : ∀ index, (∀ term, bindings.get? index = some term →
      ∀ other ∈ term.vars, motive other) → motive index) (index : UInt64) : motive index := by
  have trans : IsTrans UInt64 fun inner outer => bindings.Reaches outer inner :=
    ⟨fun _ _ _ first second => second.trans first⟩
  have irreflexive : Std.Irrefl fun inner outer => bindings.Reaches outer inner :=
    ⟨acyclic⟩
  have order := Finite.wellFounded_of_trans_of_irrefl
    fun inner outer => bindings.Reaches outer inner
  induction index using order.induction with
  | _ index ih =>
    apply step
    intro term bound other appears
    exact ih other (.direct bound appears)

/-- What a term resolves to, with at most so many crossings, is found variable by variable. -/
theorem reifyWithin?_eq_bind? (limit : Nat) (term : Term A) :
    bindings.reifyWithin? limit term =
      term.bind? fun index => bindings.reifyWithin? limit (.var index) := by
  cases limit with
  | zero =>
    rw [reifyWithin?, Term.bind?_bind?_var]
    rfl
  | succ limit =>
    rw [reifyWithin?, Term.bind?_bind?_var]
    rfl

/-- Whether a variable appears in what a term resolves to is found variable by variable. -/
theorem occursWithin?_eq_anyVar? (wanted : UInt64) (limit : Nat) (term : Term A) :
    bindings.occursWithin? wanted limit term =
      term.anyVar? fun index => bindings.occursWithin? wanted limit (.var index) := by
  cases limit with
  | zero =>
    simp only [occursWithin?, Term.anyVar?]
  | succ limit =>
    simp only [occursWithin?, Term.anyVar?]

/-- The value of a variable is found with any number of crossings beyond its depth. -/
theorem Acyclic.reifyWithin?_var (acyclic : bindings.Acyclic) (index : UInt64) :
    ∃ value, ∀ limit, (index ∈ bindings.keys → bindings.depth index < limit) →
      bindings.reifyWithin? limit (.var index) = some value := by
  induction index using acyclic.induct with
  | step index ih =>
    cases bound : bindings.get? index with
    | none =>
      refine ⟨.var index, fun limit _ => ?_⟩
      cases limit <;> simp [reifyWithin?, Term.bind?, bound]
    | some term =>
      have each : ∀ other, ∃ value, other ∈ term.vars → ∀ limit,
          (other ∈ bindings.keys → bindings.depth other < limit) →
            bindings.reifyWithin? limit (.var other) = some value := by
        intro other
        by_cases appears : other ∈ term.vars
        · obtain ⟨value, found⟩ := ih term bound other appears
          exact ⟨value, fun _ => found⟩
        · exact ⟨.var other, fun inside => absurd inside appears⟩
      choose values found using each
      refine ⟨term.bind values, fun limit enough => ?_⟩
      have room : bindings.depth index < limit := enough (by simp [keys, bound])
      cases limit with
      | zero => exact absurd room (Nat.not_lt_zero _)
      | succ limit =>
        have crossed : bindings.reifyWithin? (limit + 1) (.var index) =
            bindings.reifyWithin? limit term := by
          simp only [reifyWithin?, Term.bind?, bound]
        rw [crossed, reifyWithin?_eq_bind?]
        apply Term.bind?_eq_some
        intro other appears
        apply found other appears
        intro key
        have deeper := acyclic.depth_lt_depth bound appears key
        omega

/-- Resolving a variable ends, with any number of crossings beyond its depth. -/
theorem Acyclic.reifyWithin?_var_eq (acyclic : bindings.Acyclic) {index : UInt64} {limit : Nat}
    (enough : index ∈ bindings.keys → bindings.depth index < limit) :
    bindings.reifyWithin? limit (.var index) = some (bindings.reify (.var index)) := by
  obtain ⟨value, found⟩ := acyclic.reifyWithin?_var index
  rw [found limit enough, reify, reify?, found _ acyclic.depth_lt_size, Option.getD_some]

/-- Resolving a term ends, with any number of crossings beyond the depths of its variables, and
replaces each variable by its value. -/
theorem Acyclic.reifyWithin?_eq (acyclic : bindings.Acyclic) (term : Term A) {limit : Nat}
    (enough : ∀ index ∈ term.vars, index ∈ bindings.keys → bindings.depth index < limit) :
    bindings.reifyWithin? limit term =
      some (term.bind fun index => bindings.reify (.var index)) := by
  rw [reifyWithin?_eq_bind?]
  exact Term.bind?_eq_some fun index appears => acyclic.reifyWithin?_var_eq (enough index appears)

/-- Resolving a term ends. -/
theorem Acyclic.reify?_eq (acyclic : bindings.Acyclic) (term : Term A) :
    bindings.reify? term = some (bindings.reify term) := by
  have ended := acyclic.reifyWithin?_eq term fun _ _ => acyclic.depth_lt_size
  rw [reify, reify?, ended, Option.getD_some]

/-- The value of every variable. -/
def value (bindings : Substitution A) : Valuation A := fun index => bindings.reify (.var index)

/-- To resolve a term is to replace each variable by its value. -/
theorem Acyclic.reify_eq_bind (acyclic : bindings.Acyclic) (term : Term A) :
    bindings.reify term = term.bind bindings.value := by
  have ended := acyclic.reifyWithin?_eq term fun _ _ => acyclic.depth_lt_size
  rw [reify, reify?, ended, Option.getD_some]
  rfl

/-- A variable without a binding is its own value. -/
theorem value_of_get?_eq_none {index : UInt64} (unbound : bindings.get? index = none) :
    bindings.value index = .var index := by
  have ended : ∀ limit, bindings.reifyWithin? limit (.var index) = some (.var index) := by
    intro limit
    cases limit <;> simp [reifyWithin?, Term.bind?, unbound]
  rw [value, reify, reify?, ended, Option.getD_some]

/-- The value of a bound variable is that of its term. -/
theorem Acyclic.value_of_get?_eq_some (acyclic : bindings.Acyclic) {index : UInt64}
    {term : Term A} (bound : bindings.get? index = some term) :
    bindings.value index = term.bind bindings.value := by
  have found : bindings.reifyWithin? (bindings.depth index + 1) (.var index) =
      some (bindings.value index) :=
    acyclic.reifyWithin?_var_eq fun _ => Nat.lt_succ_self _
  have crossed : bindings.reifyWithin? (bindings.depth index + 1) (.var index) =
      bindings.reifyWithin? (bindings.depth index) term := by
    simp only [reifyWithin?, Term.bind?, bound]
  rw [crossed, acyclic.reifyWithin?_eq term fun _ => acyclic.depth_lt_depth bound] at found
  exact (Option.some.inj found).symm

/-- A way to a variable without a binding ends in the value of its start. -/
theorem Acyclic.vars_value_subset (acyclic : bindings.Acyclic) {start stop : UInt64}
    (way : bindings.Reaches start stop) :
    (bindings.value stop).vars ⊆ (bindings.value start).vars := by
  induction way with
  | direct bound appears =>
    intro index inside
    rw [acyclic.value_of_get?_eq_some bound, Term.mem_vars_bind]
    exact ⟨_, appears, inside⟩
  | trans _ _ first second => exact fun index inside => first (second inside)

/-- The variables of a value have no binding. -/
theorem Acyclic.get?_eq_none_of_mem_value (acyclic : bindings.Acyclic) {index other : UInt64}
    (appears : other ∈ (bindings.value index).vars) : bindings.get? other = none := by
  induction index using acyclic.induct with
  | step index ih =>
    cases bound : bindings.get? index with
    | none =>
      rw [value_of_get?_eq_none bound, Term.vars_var, List.mem_singleton] at appears
      rw [appears, bound]
    | some term =>
      rw [acyclic.value_of_get?_eq_some bound, Term.mem_vars_bind] at appears
      obtain ⟨next, inside, reached⟩ := appears
      exact ih term bound next inside reached

/-- The occurs check of a variable ends, with any number of crossings beyond its depth, and says
whether the wanted variable appears in its value. -/
theorem Acyclic.occursWithin?_var_eq (acyclic : bindings.Acyclic) (wanted : UInt64)
    {index : UInt64} {limit : Nat}
    (enough : index ∈ bindings.keys → bindings.depth index < limit) :
    bindings.occursWithin? wanted limit (.var index) =
      some (decide (wanted ∈ (bindings.value index).vars)) := by
  induction index using acyclic.induct generalizing limit with
  | step index ih =>
    cases bound : bindings.get? index with
    | none =>
      have checked : bindings.occursWithin? wanted limit (.var index) = some (index == wanted) := by
        cases limit <;> simp [occursWithin?, Term.anyVar?, bound]
      rw [checked, value_of_get?_eq_none bound, Term.vars_var]
      congr 1
      rw [Bool.eq_iff_iff, beq_iff_eq, decide_eq_true_iff, List.mem_singleton]
      exact eq_comm
    | some term =>
      have room : bindings.depth index < limit := enough (by simp [keys, bound])
      cases limit with
      | zero => exact absurd room (Nat.not_lt_zero _)
      | succ limit =>
        have crossed : bindings.occursWithin? wanted (limit + 1) (.var index) =
            bindings.occursWithin? wanted limit term := by
          simp only [occursWithin?, Term.anyVar?, bound]
        have each : ∀ other ∈ term.vars, bindings.occursWithin? wanted limit (.var other) =
            some (decide (wanted ∈ (bindings.value other).vars)) := by
          intro other appears
          apply ih term bound other appears
          intro key
          have deeper := acyclic.depth_lt_depth bound appears key
          omega
        rw [crossed, occursWithin?_eq_anyVar?, Term.anyVar?_eq_some each,
          acyclic.value_of_get?_eq_some bound]
        congr 1
        rw [Bool.eq_iff_iff]
        simp [Term.mem_vars_bind]

/-- The occurs check ends and says exactly whether the variable appears in the resolved term. -/
theorem Acyclic.occurs?_eq (acyclic : bindings.Acyclic) (wanted : UInt64) (term : Term A) :
    bindings.occurs? wanted term = some (decide (wanted ∈ (bindings.reify term).vars)) := by
  have each : ∀ index ∈ term.vars, bindings.occursWithin? wanted bindings.size (.var index) =
      some (decide (wanted ∈ (bindings.value index).vars)) :=
    fun index _ => acyclic.occursWithin?_var_eq wanted acyclic.depth_lt_size
  rw [occurs?, occursWithin?_eq_anyVar?, Term.anyVar?_eq_some each, acyclic.reify_eq_bind]
  congr 1
  rw [Bool.eq_iff_iff]
  simp [Term.mem_vars_bind]

/-- The occurs check says exactly whether the variable appears in the resolved term. -/
theorem Acyclic.occurs_eq (acyclic : bindings.Acyclic) (wanted : UInt64) (term : Term A) :
    bindings.occurs wanted term = decide (wanted ∈ (bindings.reify term).vars) := by
  rw [occurs, acyclic.occurs?_eq, Option.getD_some]

/-- The occurs check ends. -/
theorem Acyclic.occurs?_eq_some (acyclic : bindings.Acyclic) (wanted : UInt64) (term : Term A) :
    bindings.occurs? wanted term = some (bindings.occurs wanted term) := by
  rw [acyclic.occurs_eq, acyclic.occurs?_eq]

/-- One term leads to another along the bindings of variables. -/
inductive Leads (bindings : Substitution A) : Term A → Term A → Prop where
  /-- No binding is crossed. -/
  | here (term : Term A) : Leads bindings term term
  /-- A variable leads to where its term leads. -/
  | cross {index : UInt64} {next stop : Term A} (bound : bindings.get? index = some next)
    (onward : Leads bindings next stop) : Leads bindings (.var index) stop

/-- Following bindings comes to a term that is not a bound variable, with any number of
crossings beyond the depth of the first variable. -/
theorem Acyclic.exists_follow? (acyclic : bindings.Acyclic) {limit : Nat} {term : Term A}
    (enough : ∀ index, term = .var index → index ∈ bindings.keys →
      bindings.depth index < limit) :
    ∃ stop, bindings.follow? limit term = some stop ∧ bindings.Leads term stop ∧
      bindings.binding? stop = none := by
  induction limit generalizing term with
  | zero =>
    cases next : bindings.binding? term with
    | none => exact ⟨term, by simp only [follow?, next], .here term, next⟩
    | some other =>
      cases term with
      | var index =>
        have key : index ∈ bindings.keys := by
          rw [binding?] at next
          simp [keys, next]
        exact absurd (enough index rfl key) (Nat.not_lt_zero _)
      | atom | op => simp [binding?] at next
  | succ limit ih =>
    cases next : bindings.binding? term with
    | none => exact ⟨term, by simp only [follow?, next], .here term, next⟩
    | some other =>
      cases term with
      | var index =>
        rw [binding?] at next
        have room : bindings.depth index < limit + 1 := enough index rfl (by simp [keys, next])
        have deeper : ∀ inner, other = .var inner → inner ∈ bindings.keys →
            bindings.depth inner < limit := by
          rintro inner rfl key
          have := acyclic.depth_lt_depth next (by simp) key
          omega
        obtain ⟨stop, followed, leads, resolved⟩ := ih deeper
        refine ⟨stop, ?_, .cross next leads, resolved⟩
        simp only [follow?, binding?, next, followed]
      | atom | op => simp [binding?] at next

/-- Walking ends, at a term that is not a bound variable. -/
theorem Acyclic.exists_walk? (acyclic : bindings.Acyclic) (term : Term A) :
    ∃ stop, bindings.walk? term = some stop ∧ bindings.Leads term stop ∧
      bindings.binding? stop = none :=
  acyclic.exists_follow? fun _ _ key => acyclic.depth_lt_size key

/-- A term that leads to another is that term, or a bound variable from which every variable of
the other is reached. -/
theorem Leads.eq_or_reaches {start stop : Term A} (leads : bindings.Leads start stop) :
    start = stop ∨ ∃ index ∈ bindings.keys, start = .var index ∧
      ∀ other ∈ stop.vars, bindings.Reaches index other := by
  induction leads with
  | here term => exact .inl rfl
  | cross bound onward ih =>
    refine .inr ⟨_, by simp [keys, bound], rfl, fun other appears => ?_⟩
    obtain rfl | ⟨index, _, rfl, reached⟩ := ih
    · exact .direct bound appears
    · exact (Reaches.direct bound (by simp)).trans (reached other appears)

/-- A way under one more binding was there before, or crosses the new binding. -/
theorem Reaches.of_insert {index : UInt64} {term : Term A} {start stop : UInt64}
    (way : Reaches (IntMap.insert bindings index term) start stop) :
    bindings.Reaches start stop ∨
      (start = index ∨ bindings.Reaches start index) ∧
        ∃ inner ∈ term.vars, inner = stop ∨ bindings.Reaches inner stop := by
  induction way with
  | @direct start stop bound_term bound appears =>
    rw [IntMap.get?_insert] at bound
    by_cases same : start = index
    · rw [if_pos same] at bound
      injection bound with bound
      subst bound
      exact .inr ⟨.inl same, stop, appears, .inl rfl⟩
    · rw [if_neg same] at bound
      exact .inl (.direct bound appears)
  | @trans start middle stop _ _ first second =>
    obtain first | ⟨toIndex, inner, appears, fromTerm⟩ := first
    · obtain second | ⟨onward, rest⟩ := second
      · exact .inl (first.trans second)
      · refine .inr ⟨.inr ?_, rest⟩
        obtain rfl | onward := onward
        · exact first
        · exact first.trans onward
    · obtain second | ⟨_, rest⟩ := second
      · refine .inr ⟨toIndex, inner, appears, .inr ?_⟩
        obtain rfl | fromTerm := fromTerm
        · exact second
        · exact fromTerm.trans second
      · exact .inr ⟨toIndex, rest⟩

/-- A variable without a binding that does not appear in a resolved term may be bound to the
term without closing a cycle. -/
theorem Acyclic.insert (acyclic : bindings.Acyclic) {index : UInt64} {term : Term A}
    (unbound : bindings.get? index = none) (absent : index ∉ (bindings.reify term).vars) :
    Acyclic (IntMap.insert bindings index term) := by
  rw [acyclic.reify_eq_bind, Term.mem_vars_bind] at absent
  have missed : ∀ inner ∈ term.vars, ¬ (inner = index ∨ bindings.Reaches inner index) := by
    intro inner appears arrives
    apply absent
    refine ⟨inner, appears, ?_⟩
    have own : index ∈ (bindings.value index).vars := by
      rw [value_of_get?_eq_none unbound]
      simp
    obtain rfl | way := arrives
    · exact own
    · exact acyclic.vars_value_subset way own
  intro start cycle
  obtain old | ⟨toIndex, inner, appears, fromTerm⟩ := Reaches.of_insert cycle
  · exact acyclic start old
  · apply missed inner appears
    obtain rfl | toIndex := toIndex
    · exact fromTerm
    · obtain rfl | fromTerm := fromTerm
      · exact .inr toIndex
      · exact .inr (fromTerm.trans toIndex)

/-- A variable without a binding that passes the occurs check may be bound without closing a
cycle. -/
theorem Acyclic.insert_of_occurs (acyclic : bindings.Acyclic) {index : UInt64} {term : Term A}
    (unbound : bindings.get? index = none) (checked : bindings.occurs index term = false) :
    Acyclic (IntMap.insert bindings index term) := by
  rw [acyclic.occurs_eq, decide_eq_false_iff_not] at checked
  exact acyclic.insert unbound checked

/-- A binding of a variable without one extends the bindings. -/
theorem extends_insert {index : UInt64} {term : Term A} (unbound : bindings.get? index = none) :
    bindings.Extends (IntMap.insert bindings index term) := by
  intro other found bound
  rw [IntMap.get?_insert, if_neg ?_]
  · exact bound
  · rintro rfl
    rw [unbound] at bound
    cases bound

end Substitution

end Relational
