import Relational.IntMap.Handle
import Relational.Proofs.Substitution.Walking
import Relational.Proofs.Unification.MostGeneral

/-!
# Nothing is bound without need

An equation whose sides resolve to equal terms is never solved by a binding: walking ends at equal
variables, at equal atoms, or at operations whose arguments resolve to equal terms one by one. And
what working off equations comes to resolves both sides of each of them to equal terms. So the map
that unification is given comes back if the two terms resolve to equal terms, and only then.
Payloads only have to be equal to themselves, as every atom is compared with the atom on the other
side.
-/
namespace Relational

/-!
## Which map unification returns

Unification begins with the map of bindings that it is given and makes another map for every
variable that it binds. So the map that it returns is the given one if it binds nothing. Here
equations are worked off under a handle of the map, and the makings are numbered on from a number.
-/

section Handles

universe u

variable {A : Type u} [BEq A] [Decidable (ReflBEq A)]

/-- Works off equations as `solve?` does, with the making of the map that holds the bindings. A
binding makes a map, which gets the next number. -/
def Unification.solveMade? (handle : IntMap.Handle (Term A)) (next : Nat)
    (pending : List (Equation A)) : Option (Except Clash (IntMap.Handle (Term A))) :=
  match pending with
  | [] => some (.ok handle)
  | equation :: rest =>
    match _stepped : equation.step handle.map with
    | .clash reason => some (.error reason)
    | .bound bindings => solveMade? ⟨bindings, next⟩ (next + 1) rest
    | .reduced equations => solveMade? handle next (equations ++ rest)
    | .unknown => none
termination_by (Worklist.wellFounded Equation.smaller_wellFounded).wrap pending
decreasing_by
  · exact .replace equation [] rest (fun _ member => nomatch member)
  · exact .replace equation equations rest (Equation.smaller_of_step _stepped)

/-- The map with the bindings extended so that two terms become equal, or the first clash; unknown
if the bindings do not end. Makings before had numbers below the next one. -/
def unifyMade? (left right : Term A) (handle : IntMap.Handle (Term A)) (next : Nat) :
    Option (Except Clash (IntMap.Handle (Term A))) :=
  Unification.solveMade? handle next [⟨left, right, 0⟩]

end Handles

/-! ## What is kept -/

universe u

variable {A : Type u}

namespace IntMap

variable {V : Type u}

namespace Handle

/-- A handle shares its map with itself. -/
theorem same_self (handle : Handle V) : handle.same handle = true := by
  rw [same]
  split
  · next empty => simpa using empty
  · simp

/-- Handles of maps of different sizes from different makings share no map. -/
theorem same_eq_false {left right : Handle V} (smaller : left.map.size < right.map.size)
    (makings : left.making ≠ right.making) : left.same right = false := by
  have full : right.map.isEmpty = false := by
    rw [isEmpty]
    cases root : right.map.root with
    | empty =>
      rw [IntMap.size, IntMap.size, root] at smaller
      exact absurd smaller (Nat.not_lt_zero _)
    | node => rfl
  rw [same]
  split
  · rw [full, Bool.and_false]
  · simpa using makings

end Handle

end IntMap

namespace Unification

variable [BEq A] {bindings : Substitution A}

/-- Bindings are only added where two terms do not resolve to equal terms, and then they are
needed; what is left of two terms resolves to equal terms where the terms do. -/
def Outcome.Exact (bindings : Substitution A) (left right : Term A) : Outcome A → Prop
  | clash _ => ¬ bindings.value.Equates left right
  | bound after => bindings.size < after.size ∧ bindings.Extends after ∧
      ¬ bindings.value.Equates left right ∧
      ∀ last : Substitution A, last.Acyclic → after.Extends last →
        last.value.Equates left right
  | reduced equations => ∀ last : Substitution A, last.Acyclic → bindings.Extends last →
      (last.value.EquatesAll equations ↔ last.value.Equates left right)
  | unknown => True

/-- Terms resolve to equal terms if the terms that they lead to do. -/
theorem equates_of_leads {last : Substitution A} (acyclic : last.Acyclic)
    (extends_ : bindings.Extends last) {left right leftStop rightStop : Term A}
    (leftLeads : bindings.Leads left leftStop) (rightLeads : bindings.Leads right rightStop) :
    last.value.Equates left right ↔ last.value.Equates leftStop rightStop := by
  have lefts := acyclic.reify_eq_of_leads (leftLeads.extend extends_)
  have rights := acyclic.reify_eq_of_leads (rightLeads.extend extends_)
  simp only [acyclic.reify_eq_bind] at lefts rights
  rw [Valuation.Equates, Valuation.Equates, lefts, rights]

/-- An outcome is exact for two terms if it is for the terms that they lead to. -/
theorem Outcome.Exact.congr (acyclic : bindings.Acyclic) {left right leftStop rightStop : Term A}
    {outcome : Outcome A} (exact_ : outcome.Exact bindings leftStop rightStop)
    (leftLeads : bindings.Leads left leftStop) (rightLeads : bindings.Leads right rightStop) :
    outcome.Exact bindings left right := by
  have now := equates_of_leads acyclic (.refl bindings) leftLeads rightLeads
  cases outcome with
  | clash reason => exact fun equated => exact_ (now.mp equated)
  | bound after =>
    obtain ⟨larger, kept, apart, joined⟩ := exact_
    refine ⟨larger, kept, fun equated => apart (now.mp equated), fun last lastAcyclic further => ?_⟩
    exact (equates_of_leads lastAcyclic (kept.trans further) leftLeads rightLeads).mpr
      (joined last lastAcyclic further)
  | reduced equations =>
    intro last lastAcyclic further
    rw [exact_ last lastAcyclic further]
    exact (equates_of_leads lastAcyclic further leftLeads rightLeads).symm
  | unknown => trivial

/-- A variable is bound exactly if the two terms do not resolve to equal terms, but do as soon as
it is bound. -/
theorem exact_bind (acyclic : bindings.Acyclic) {index : UInt64} {term left right : Term A}
    (unbound : bindings.get? index = none) (apart : ¬ bindings.value.Equates left right)
    (joined : ∀ valuation : Valuation A, valuation index = term.bind valuation →
      valuation.Equates left right) :
    (Unification.bind bindings index term).Exact bindings left right := by
  rw [Unification.bind, acyclic.occurs?_eq_some]
  cases bindings.occurs index term with
  | true => exact apart
  | false =>
    refine ⟨?_, Substitution.extends_insert unbound, apart, fun last lastAcyclic further => ?_⟩
    · rw [IntMap.size_insert_of_get?_eq_none unbound]
      exact Nat.lt_succ_self _
    · have bound : last.get? index = some term :=
        further index term (by rw [IntMap.get?_insert, if_pos rfl])
      exact joined last.value (lastAcyclic.value_of_get?_eq_some bound)

/-- An open variable and another resolved term do not resolve to equal terms. -/
theorem not_equates_var {index : UInt64} {term : Term A}
    (unbound : bindings.get? index = none) (resolved : bindings.binding? term = none)
    (different : term ≠ .var index) :
    ¬ bindings.value.Equates (.var index) term ∧ ¬ bindings.value.Equates term (.var index) := by
  rw [Valuation.Equates, Valuation.Equates, Term.bind_var,
    Substitution.value_of_get?_eq_none unbound]
  cases term with
  | var other =>
    have apart : other ≠ index := fun same => different (congrArg Term.var same)
    rw [Term.bind_var, Substitution.value_of_get?_eq_none resolved]
    simp [apart, apart.symm]
  | atom payload => simp
  | op symbol arguments => simp

/-- What working off equations comes to resolves both sides of each of them to equal terms. It is
the given handle if they do so already, and otherwise the handle of a larger map that was made on
the way. -/
def Spares (handle : IntMap.Handle (Term A)) (next : Nat) (pending : List (Equation A)) :
    Except Clash (IntMap.Handle (Term A)) → Prop
  | .error _ => ¬ (Substitution.value handle.map).EquatesAll pending
  | .ok after => Substitution.Acyclic after.map ∧ Substitution.Extends handle.map after.map ∧
      (Substitution.value after.map).EquatesAll pending ∧
      ((Substitution.value handle.map).EquatesAll pending ∧ after = handle ∨
        ¬ (Substitution.value handle.map).EquatesAll pending ∧
          handle.map.size < after.map.size ∧ next ≤ after.making)

/-- Where the first equation asked for a binding, the handle of the larger map goes on. -/
theorem Spares.of_bound {handle : IntMap.Handle (Term A)} {next : Nat} {equation : Equation A}
    {rest : List (Equation A)} {after : Substitution A}
    {answer : Except Clash (IntMap.Handle (Term A))}
    (exact_ : (Outcome.bound after).Exact handle.map equation.left equation.right)
    (spares : Spares ⟨after, next⟩ (next + 1) rest answer) :
    Spares handle next (equation :: rest) answer := by
  obtain ⟨larger, kept, apart, joined⟩ := exact_
  have needed : ¬ (Substitution.value handle.map).EquatesAll (equation :: rest) :=
    fun all => apart (Valuation.equatesAll_cons.mp all).1
  cases answer with
  | error reason => exact needed
  | ok last =>
    obtain ⟨acyclic, further, others, grown⟩ := spares
    have first := joined last.map acyclic further
    refine ⟨acyclic, kept.trans further, Valuation.equatesAll_cons.mpr ⟨first, others⟩,
      .inr ⟨needed, ?_⟩⟩
    rcases grown with ⟨_, rfl⟩ | ⟨_, more, later⟩
    · exact ⟨larger, Nat.le_refl next⟩
    · exact ⟨Nat.lt_trans larger more, Nat.le_of_succ_le later⟩

/-- Equations may be replaced by equations that the same bindings resolve. -/
theorem Spares.congr {handle : IntMap.Handle (Term A)} {next : Nat}
    {pending others : List (Equation A)} {answer : Except Clash (IntMap.Handle (Term A))}
    (acyclic : Substitution.Acyclic handle.map)
    (same : ∀ last : Substitution A, last.Acyclic → Substitution.Extends handle.map last →
      (last.value.EquatesAll others ↔ last.value.EquatesAll pending))
    (spares : Spares handle next others answer) : Spares handle next pending answer := by
  have now := same handle.map acyclic (.refl handle.map)
  cases answer with
  | error reason => exact fun all => spares (now.mpr all)
  | ok after =>
    obtain ⟨afterAcyclic, kept, all, grown⟩ := spares
    refine ⟨afterAcyclic, kept, (same after.map afterAcyclic kept).mp all, ?_⟩
    rwa [← now]

variable [ReflBEq A]

/-- Taking two resolved terms apart is exact. -/
theorem exact_settle (acyclic : bindings.Acyclic) (equation : Equation A) {left right : Term A}
    (leftResolved : bindings.binding? left = none)
    (rightResolved : bindings.binding? right = none) :
    (equation.settle bindings left right).Exact bindings left right := by
  have joined {index : UInt64} {term : Term A} {valuation : Valuation A}
      (same : valuation index = term.bind valuation) :
      valuation.Equates (.var index) term ∧ valuation.Equates term (.var index) := by
    rw [Valuation.Equates, Valuation.Equates, Term.bind_var, same]
    exact ⟨BEq.rfl, BEq.rfl⟩
  unfold Equation.settle
  split
  · next leftIndex rightIndex =>
    by_cases same : leftIndex = rightIndex
    · subst same
      rw [if_pos BEq.rfl]
      intro last _ _
      simp [Valuation.equates_of_beq]
    · rw [if_neg (mt eq_of_beq same)]
      have different : Term.var (A := A) rightIndex ≠ .var leftIndex :=
        fun vars => same (Term.var.inj vars).symm
      exact exact_bind acyclic leftResolved
        (not_equates_var leftResolved rightResolved different).1 fun _ equal => (joined equal).1
  · next index distinct =>
    exact exact_bind acyclic leftResolved
      (not_equates_var leftResolved rightResolved fun same => distinct _ same).1
      fun _ equal => (joined equal).1
  · next index distinct =>
    exact exact_bind acyclic rightResolved
      (not_equates_var rightResolved leftResolved fun same => distinct _ same).2
      fun _ equal => (joined equal).2
  · cases equation.crossedBelow? with
    | none => trivial
    | some crossed =>
      dsimp only
      rw [(left.locate crossed right).2]
      have compared := Term.compared_differences crossed left right
      cases found : left.differences crossed right with
      | none =>
        rw [found] at compared
        intro last _ _
        simp [compared last.value]
      | some front =>
        rw [found] at compared
        dsimp only
        cases clash : left.clash? right with
        | some reason => exact Term.not_equates_of_clash clash bindings.value
        | none =>
          intro last _ _
          rw [compared last.value []]
          simp

/-- One step on an equation is exact. -/
theorem exact_step (acyclic : bindings.Acyclic) (equation : Equation A) :
    (equation.step bindings).Exact bindings equation.left equation.right := by
  obtain ⟨left, leftWalked, leftLeads, leftResolved⟩ := acyclic.exists_walk? equation.left
  obtain ⟨right, rightWalked, rightLeads, rightResolved⟩ := acyclic.exists_walk? equation.right
  rw [Equation.step, leftWalked, rightWalked]
  exact (exact_settle acyclic equation leftResolved rightResolved).congr acyclic leftLeads
    rightLeads

/-- Working off equations under acyclic bindings ends, and spares the handle where it can. -/
theorem solveMade?_spares (handle : IntMap.Handle (Term A)) (next : Nat)
    (pending : List (Equation A)) (acyclic : Substitution.Acyclic handle.map)
    (behind : ∀ equation ∈ pending,
      Substitution.Behind handle.map equation.crossed equation.left) :
    ∃ answer, solveMade? handle next pending = some answer ∧
      Spares handle next pending answer := by
  induction handle, next, pending using solveMade?.induct with
  | case1 handle next =>
    refine ⟨.ok handle, by rw [solveMade?], acyclic, .refl handle.map, by simp, .inl ?_⟩
    simp
  | case2 handle next equation rest reason stepped =>
    have exact_ := exact_step acyclic equation
    rw [stepped] at exact_
    refine ⟨.error reason, by rw [solveMade?, stepped], fun all => ?_⟩
    exact exact_ (Valuation.equatesAll_cons.mp all).1
  | case3 handle next equation rest after stepped ih =>
    have exact_ := exact_step acyclic equation
    have right := right_step acyclic (behind equation (List.mem_cons_self ..))
    rw [stepped] at exact_ right
    obtain ⟨afterAcyclic, grown, _⟩ := right
    obtain ⟨answer, solved, spares⟩ := ih afterAcyclic fun other member =>
      (behind other (List.mem_cons_of_mem _ member)).extend grown
    exact ⟨answer, by rw [solveMade?, stepped]; exact solved, spares.of_bound exact_⟩
  | case4 handle next equation rest equations stepped ih =>
    have exact_ := exact_step acyclic equation
    have right := right_step acyclic (behind equation (List.mem_cons_self ..))
    rw [stepped] at exact_ right
    obtain ⟨below, _⟩ := right
    obtain ⟨answer, solved, spares⟩ := ih acyclic (by
      intro other member
      rcases List.mem_append.mp member with new | old
      · exact below other new
      · exact behind other (List.mem_cons_of_mem _ old))
    refine ⟨answer, by rw [solveMade?, stepped]; exact solved, spares.congr acyclic ?_⟩
    intro last lastAcyclic further
    rw [Valuation.equatesAll_append, Valuation.equatesAll_cons,
      exact_ last lastAcyclic further]
  | case5 handle next equation rest stepped =>
    have right := right_step acyclic (behind equation (List.mem_cons_self ..))
    rw [stepped] at right
    exact right.elim

/-- The makings of maps do not change what is found. -/
theorem map_solveMade? (handle : IntMap.Handle (Term A)) (next : Nat)
    (pending : List (Equation A)) :
    (solveMade? handle next pending).map (Except.map IntMap.Handle.map) =
      solve? handle.map pending := by
  induction handle, next, pending using solveMade?.induct with
  | case1 handle next =>
    rw [solveMade?, solve?]
    rfl
  | case2 handle next equation rest reason stepped =>
    rw [solveMade?, solve?, stepped]
    rfl
  | case3 handle next equation rest after stepped ih =>
    rw [solveMade?, solve?, stepped]
    exact ih
  | case4 handle next equation rest equations stepped ih =>
    rw [solveMade?, solve?, stepped]
    exact ih
  | case5 handle next equation rest stepped =>
    rw [solveMade?, solve?, stepped]
    rfl

end Unification

/-- Two terms have one value where variables have the values that they resolve to if the terms
resolve to equal terms. -/
theorem Substitution.Acyclic.equates_value [BEq A] {bindings : Substitution A}
    (acyclic : bindings.Acyclic) (left right : Term A) :
    bindings.value.Equates left right ↔ bindings.reify left == bindings.reify right := by
  rw [Valuation.Equates, acyclic.reify_eq_bind, acyclic.reify_eq_bind]

section Making

variable [BEq A] [ReflBEq A] {left right : Term A} {handle after : IntMap.Handle (Term A)}
  {next : Nat}

/-- Unification ends, and spares the handle where it can. -/
theorem unifyMade?_spares (left right : Term A) (next : Nat)
    (acyclic : Substitution.Acyclic handle.map) :
    ∃ answer, unifyMade? left right handle next = some answer ∧
      Unification.Spares handle next [⟨left, right, 0⟩] answer :=
  Unification.solveMade?_spares handle next _ acyclic fun equation member => by
    rw [List.mem_singleton.mp member]
    exact Substitution.behind_zero left

/-- Terms that resolve to equal terms unify under the given map. -/
theorem unifyMade?_of_beq (next : Nat) (acyclic : Substitution.Acyclic handle.map)
    (equal : Substitution.reify handle.map left == Substitution.reify handle.map right) :
    unifyMade? left right handle next = some (.ok handle) := by
  obtain ⟨answer, made, spares⟩ := unifyMade?_spares left right next acyclic
  have all : (Substitution.value handle.map).EquatesAll [⟨left, right, 0⟩] :=
    Valuation.equatesAll_cons.mpr
      ⟨(acyclic.equates_value left right).mpr equal, Valuation.equatesAll_nil⟩
  cases answer with
  | error reason => exact absurd all spares
  | ok after =>
    obtain ⟨_, _, _, ⟨_, rfl⟩ | ⟨needed, _⟩⟩ := spares
    · exact made
    · exact absurd all needed

/-- What terms unify under resolves them to equal terms. It is the given handle if that does so, and
otherwise the handle of a larger map that was made later. -/
theorem cases_of_unifyMade? (acyclic : Substitution.Acyclic handle.map)
    (made : unifyMade? left right handle next = some (.ok after)) :
    Substitution.Acyclic after.map ∧
      Substitution.reify after.map left == Substitution.reify after.map right ∧
      (after = handle ∨ handle.map.size < after.map.size ∧ next ≤ after.making) := by
  obtain ⟨answer, found, spares⟩ := unifyMade?_spares left right next acyclic
  cases Option.some.inj (found.symm.trans made)
  obtain ⟨afterAcyclic, _, all, grown⟩ := spares
  have equal := (Valuation.equatesAll_cons.mp all).1
  refine ⟨afterAcyclic, (afterAcyclic.equates_value left right).mp equal, ?_⟩
  rcases grown with ⟨_, same⟩ | ⟨_, larger⟩
  · exact .inl same
  · exact .inr larger

/-- What terms unify under shares the given map and is the given handle, or it does not and has more
bindings. -/
theorem same_or_larger (acyclic : Substitution.Acyclic handle.map)
    (unused : handle.making < next)
    (made : unifyMade? left right handle next = some (.ok after)) :
    handle.same after = true ∧ after = handle ∨
      handle.same after = false ∧ handle.map.size < after.map.size := by
  obtain ⟨_, _, same | ⟨larger, later⟩⟩ := cases_of_unifyMade? acyclic made
  · exact .inl ⟨same ▸ handle.same_self, same⟩
  · have makings : handle.making ≠ after.making := by omega
    exact .inr ⟨IntMap.Handle.same_eq_false larger makings, larger⟩

/-- Unification binds nothing without need. Under acyclic bindings it returns the map that it is
given if and only if the two terms resolve to equal terms under it. So any term unifies with itself
under the given map, and terms that have been unified unify under the map that was returned,
whatever number the next making has; and a map that is returned is the given one or larger. -/
theorem unify_keeps_map_iff (left right : Term A) (acyclic : Substitution.Acyclic handle.map)
    (unused : handle.making < next) :
    (unifyMade? left right handle next).map (Except.map IntMap.Handle.map) =
        some (unify left right handle.map) ∧
      ((∃ after, unifyMade? left right handle next = some (.ok after) ∧
          handle.same after = true) ↔
        ∃ leftValue rightValue, Substitution.reify? handle.map left = some leftValue ∧
          Substitution.reify? handle.map right = some rightValue ∧ leftValue == rightValue) ∧
      (∀ term, unifyMade? term term handle next = some (.ok handle)) ∧
      ∀ after, unifyMade? left right handle next = some (.ok after) →
        (handle.same after = true → after = handle) ∧
        (handle.same after = false → handle.map.size < after.map.size) ∧
        Substitution.unchanged handle.map after.map = handle.same after ∧
        ∀ later, unifyMade? left right after later = some (.ok after) := by
  refine ⟨?_, ⟨?_, ?_⟩, fun term => ?_, fun after made => ?_⟩
  · rw [unifyMade?, Unification.map_solveMade?]
    exact (unify?_answers left right acyclic).1
  · rintro ⟨after, made, shared⟩
    rcases same_or_larger acyclic unused made with ⟨_, rfl⟩ | ⟨apart, _⟩
    · obtain ⟨_, equal, _⟩ := cases_of_unifyMade? acyclic made
      exact ⟨_, _, acyclic.reify?_eq left, acyclic.reify?_eq right, equal⟩
    · rw [apart] at shared
      cases shared
  · rintro ⟨leftValue, rightValue, leftResolved, rightResolved, equal⟩
    rw [acyclic.reify?_eq, Option.some.injEq] at leftResolved rightResolved
    subst leftResolved rightResolved
    exact ⟨handle, unifyMade?_of_beq next acyclic equal, handle.same_self⟩
  · exact unifyMade?_of_beq next acyclic BEq.rfl
  · obtain ⟨afterAcyclic, equal, _⟩ := cases_of_unifyMade? acyclic made
    have again : ∀ later, unifyMade? left right after later = some (.ok after) :=
      fun later => unifyMade?_of_beq later afterAcyclic equal
    rcases same_or_larger acyclic unused made with ⟨shared, same⟩ | ⟨apart, larger⟩
    · refine ⟨fun _ => same, fun apart => ?_, ?_, again⟩
      · rw [shared] at apart
        cases apart
      · rw [shared, same, Substitution.unchanged, BEq.rfl]
    · refine ⟨fun shared => ?_, fun _ => larger, ?_, again⟩
      · rw [apart] at shared
        cases shared
      · rw [apart, Substitution.unchanged, beq_eq_false_iff_ne]
        exact Nat.ne_of_lt larger

end Making

/-- With `v0` bound to `v1` and `v2` to `f(v1)`, the terms `f(v0)` and `v2` look different and both
resolve to `f(v1)`; unifying them returns the map as it is. -/
theorem alias_needs_no_binding :
    let bindings : Substitution Int64 :=
      (IntMap.insert IntMap.empty 0 (.var 1)).insert 2 (.op "f" [.var 1])
    let handle : IntMap.Handle (Term Int64) := ⟨bindings, 7⟩
    bindings.Acyclic ∧ handle.making < 8 ∧
      bindings.reify? (.op "f" [.var 0]) = some (.op "f" [.var 1]) ∧
        bindings.reify? (.var 2) = some (.op "f" [.var 1]) ∧
          unifyMade? (.op "f" [.var 0]) (.var 2) handle 8 = some (.ok handle) := by
  intro bindings handle
  have inner : Substitution.Acyclic (IntMap.insert IntMap.empty 0 (.var 1 : Term Int64)) :=
    Substitution.acyclic_empty.insert_of_occurs (IntMap.get?_empty 0) (by cbv)
  have free : (IntMap.insert IntMap.empty 0 (.var 1 : Term Int64)).get? 2 = none := by
    rw [IntMap.get?_insert, if_neg (by decide), IntMap.get?_empty]
  have acyclic : bindings.Acyclic := inner.insert_of_occurs free (by cbv)
  have left : bindings.reify? (.op "f" [.var 0]) = some (.op "f" [.var 1]) := by cbv
  have right : bindings.reify? (.var 2) = some (.op "f" [.var 1]) := by cbv
  have unused : handle.making < 8 := by decide
  obtain ⟨_, ⟨_, spared⟩, _, kept⟩ :=
    unify_keeps_map_iff (.op "f" [.var 0]) (.var 2) acyclic unused
  obtain ⟨after, made, shared⟩ := spared ⟨_, _, left, right, BEq.rfl⟩
  have same := (kept after made).1 shared
  rw [same] at made
  exact ⟨acyclic, unused, left, right, made⟩

end Relational
