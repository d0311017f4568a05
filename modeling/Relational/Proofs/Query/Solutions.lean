import Relational.Proofs.Goal.Fairness
import Relational.Proofs.Goal.Meaning
import Relational.Proofs.Unification.Recursion
import Relational.Query

/-!
# The answers of queries are their solutions

Each answer of a query comes from a state that the goal of the query derives, and says what the
variables of the query resolve to there. Whatever its open variables are replaced by, the goal
holds of what the names then stand for; and whatever the goal holds of is an instance of an answer.
-/
namespace Relational

variable {A δ : Type}

namespace Answer

/-- A name that has no value yet gets one at the end. -/
theorem assign_of_notMem {name : String} {bindings : List (String × Term A)}
    (absent : name ∉ bindings.map (·.1)) (value : Term A) :
    assign name value bindings = bindings ++ [(name, value)] := by
  induction bindings with
  | nil => rfl
  | cons binding bindings later =>
    rw [List.map_cons, List.mem_cons, not_or] at absent
    rw [assign, if_neg fun same => absent.1 same.symm, later absent.2, List.cons_append]

/-- An answer gives different names their values in order. -/
theorem bindings_ofList {values : List (String × Term A)} (distinct : (values.map (·.1)).Nodup) :
    (ofList values).bindings = values := by
  have after : ∀ (bindings : List (String × Term A)),
      ((bindings ++ values).map (·.1)).Nodup →
        values.foldl (fun bindings value => assign value.1 value.2 bindings) bindings =
          bindings ++ values := by
    clear distinct
    induction values with
    | nil => exact fun bindings _ => (List.append_nil bindings).symm
    | cons value values later =>
      intro bindings distinct
      rw [List.append_cons] at distinct
      have absent : value.1 ∉ bindings.map (·.1) := by
        intro there
        rw [List.map_append, List.map_append, List.append_assoc] at distinct
        have apart := (List.nodup_append.mp distinct).2.2 value.1 there value.1 (by simp)
        exact apart rfl
      rw [List.foldl_cons, assign_of_notMem absent, later _ distinct, ← List.append_cons]
  exact after [] distinct

end Answer

namespace Query

variable {query : Query} {build : List (Term A) → Built A δ}

/-- There are as many variables as names. -/
theorem length_indices (fits : query.names.length < UInt64.size) :
    query.indices.length = query.names.length := by
  rw [indices, State.length_indices, count]
  exact UInt64.toNat_ofNat_of_lt' fits

/-- An answer says, for different names in order, what their variables resolve to. -/
theorem bindings_answer (distinct : query.names.Nodup) (fits : query.names.length < UInt64.size)
    (state : State A) : (query.answer state).bindings =
      query.names.zip (query.indices.map state.substitution.value) := by
  have vars : (query.vars : List (Term A)) = query.indices.map .var :=
    State.vars_eq_map_indices 0 query.count
  have entries : (query.names.zip query.vars).map (fun entry => (entry.1, state.reify entry.2)) =
      query.names.zip (query.indices.map state.substitution.value) := by
    rw [vars, List.zip_map_right, List.map_map, List.zip_map_right]
    rfl
  rw [answer, entries]
  apply Answer.bindings_ofList
  rw [List.map_fst_zip]
  · exact distinct
  · rw [List.length_map, length_indices fits]

/-- The names of an answer are those of the query. -/
theorem names_answer (distinct : query.names.Nodup) (fits : query.names.length < UInt64.size)
    (state : State A) : (query.answer state).bindings.map (·.1) = query.names := by
  rw [bindings_answer distinct fits, List.map_fst_zip]
  rw [List.length_map, length_indices fits]

/-- The values of an answer are what the variables of the query resolve to. -/
theorem values_answer (distinct : query.names.Nodup) (fits : query.names.length < UInt64.size)
    (state : State A) : (query.answer state).bindings.map (·.2) =
      query.indices.map state.substitution.value := by
  rw [bindings_answer distinct fits, List.map_snd_zip]
  rw [List.length_map, length_indices fits]

/-- There is room for the variables of a query. -/
theorem room_count (query : Query) :
    (0 : UInt64).toNat + query.count.toNat < UInt64.size := by
  rw [UInt64.toNat_zero, Nat.zero_add]
  exact query.count.toNat_lt

/-- The variables of a query are handed out from the start. -/
theorem lt_freshCount_start {index : UInt64} (there : index ∈ query.indices) :
    index.toNat < (query.start : State A).freshCount.toNat := by
  have place := (State.mem_indices query.room_count).mp there
  rw [UInt64.toNat_zero, Nat.zero_add] at place
  exact place.2

variable [BEq A] {program : Program A δ}

/-- The answers of a query come from the states that its goal derives, unless the indices of new
variables run out. -/
theorem yields_iff [Decidable (ReflBEq A)]
    (room : ¬ Overflows program (build query.vars).goal query.start) {answer : Answer A} :
    query.Yields program build answer ↔
      ∃ state, query.answer state = answer ∧
        ∃ way, Derives program (build query.vars).goal query.start state way := by
  obtain ⟨stream, read, _, emits⟩ :=
    Goal.exists_calculate (build query.vars).goal Substitution.acyclic_empty room
  have found : ∀ {state : State A}, (∃ bound count states,
      Search.take program bound count (query.run build) = .ok states ∧ state ∈ states) ↔
        ∃ way, Derives program (build query.vars).goal query.start state way := by
    intro state
    rw [← emits state, Search.mem_take_iff]
    have same : (query.run build).read (Search.reading program) [] = some stream :=
      (Search.read_reportAll _ []).trans read
    constructor
    · rintro ⟨other, read', emitted⟩
      rw [same, Option.some.injEq] at read'
      exact read' ▸ emitted
    · exact fun emitted => ⟨stream, same, emitted⟩
  constructor
  · rintro ⟨bound, count, answers, taken, member⟩
    unfold take at taken
    cases states : Search.take program bound count (query.run build) with
    | error stop =>
      rw [states] at taken
      exact nomatch taken
    | ok states' =>
      rw [states] at taken
      cases taken
      obtain ⟨state, there, rfl⟩ := List.mem_map.mp member
      exact ⟨state, rfl, found.mp ⟨bound, count, states', states, there⟩⟩
  · rintro ⟨state, rfl, derived⟩
    obtain ⟨bound, count, states, taken, member⟩ := found.mpr derived
    refine ⟨bound, count, states.map query.answer, ?_, List.mem_map_of_mem member⟩
    rw [take, taken]
    rfl

/-- Before anything is derived the state of a query goes with every valuation. -/
theorem fits_start [ReflBEq A] (valuation : Valuation A) :
    Fits (fun one two => one = two ∧ one ∈ query.indices) query.indices valuation
      (query.start : State A) valuation := by
  have solves : ∀ other : Valuation A, other.Solves (query.start : State A).substitution := by
    intro other index term bound
    rw [show (query.start : State A).substitution = IntMap.empty from rfl,
      IntMap.get?_empty] at bound
    exact nomatch bound
  refine ⟨Substitution.acyclic_empty, fun _ second _ _ => solves second, solves valuation,
    fun paired => paired.2, ?_, ?_⟩
  · rintro one two ⟨rfl, there⟩
    exact lt_freshCount_start there
  · rintro one two ⟨rfl, _⟩
    exact BEq.rfl

/-- Instances of the answers of a query satisfy it. -/
theorem satisfied_of_derives [EquivBEq A] (distinct : query.names.Nodup)
    (fits : query.names.length < UInt64.size)
    (places : (build query.vars).goal.Places program query.indices) {state : State A}
    {way : List Allocation}
    (derivation : Derives program (build query.vars).goal query.start state way)
    (others valuation : Valuation A) : query.Satisfied program build others
      ((query.answer state).bindings.map fun binding => binding.2.bind valuation) := by
  let solution : Valuation A := fun index => (state.substitution.value index).bind valuation
  have acyclic := derivation.acyclic Substitution.acyclic_empty
  have values : (query.answer state).bindings.map (fun binding => binding.2.bind valuation) =
      query.indices.map solution := by
    calc (query.answer state).bindings.map (fun binding => binding.2.bind valuation)
        = ((query.answer state).bindings.map (·.2)).map (Term.bind valuation) := by
          rw [List.map_map]
          rfl
      _ = query.indices.map solution := by
          rw [values_answer distinct fits, List.map_map]
          rfl
  have holds := derivations_hold.1 derivation Substitution.acyclic_empty
    (fun index there => lt_freshCount_start there) (acyclic.instance_solves valuation)
  rw [values]
  refine ⟨by rw [List.length_map, length_indices fits], ?_⟩
  obtain ⟨named, names, same⟩ := places
  refine holds.of_agree names same (fun _ _ paired => paired) fun index there => ?_
  rw [Valuation.assign_map solution there]
  exact BEq.rfl

/-- What satisfies a query is an instance of an answer that its goal derives. -/
theorem exists_derives_of_satisfied [EquivBEq A] (distinct : query.names.Nodup)
    (fits : query.names.length < UInt64.size)
    (places : (build query.vars).goal.Places program query.indices)
    (room : ¬ Overflows program (build query.vars).goal query.start) {others : Valuation A}
    {values : List (Term A)} (satisfied : query.Satisfied program build others values) :
    ∃ state way, Derives program (build query.vars).goal query.start state way ∧
      ∃ valuation : Valuation A, List.Forall₂
        (fun binding value => binding.2.bind valuation == value)
          (query.answer state).bindings values := by
  obtain ⟨enough, holds⟩ := satisfied
  obtain ⟨named, names, same⟩ := places
  obtain ⟨state, way, solution, derivation, goes⟩ :=
    holds.followed names same (fits_start _) room
  refine ⟨state, way, derivation, solution, ?_⟩
  have given : query.indices.map (others.assign query.indices values) = values :=
    Valuation.map_assign (State.nodup_indices query.room_count)
      (enough.trans (length_indices fits).symm)
  have resolved : List.Forall₂ (fun term value => Term.bind solution term == value)
      ((query.answer state).bindings.map (·.2)) values := by
    rw [values_answer distinct fits, ← given, List.forall₂_map_left_iff,
      List.forall₂_map_right_iff, List.forall₂_same]
    intro index there
    have agree := goes.agree index index ⟨rfl, there⟩
    exact BEq.trans (goes.acyclic.bind_value_beq goes.solves index) (BEq.symm agree)
  rw [List.forall₂_map_left_iff] at resolved
  exact resolved

/-- The answers of a query are exactly the solutions of its goal. Every answer names the variables
of the query, and whatever the variables left in it are replaced by, the terms for the names
satisfy the query; and all terms that satisfy it are such an instance of an answer that comes
after finitely many pulls. -/
theorem answers_are_solutions [EquivBEq A] (program : Program A δ) (query : Query)
    (build : List (Term A) → Built A δ) (distinct : query.names.Nodup)
    (fits : query.names.length < UInt64.size)
    (places : (build query.vars).goal.Places program query.indices)
    (room : ¬ Overflows program (build query.vars).goal query.start) (others : Valuation A) :
    (∀ answer, query.Yields program build answer →
      answer.bindings.map (·.1) = query.names ∧
        ∀ valuation : Valuation A, query.Satisfied program build others
          (answer.bindings.map fun binding => binding.2.bind valuation)) ∧
      ∀ values, query.Satisfied program build others values →
        ∃ answer, query.Yields program build answer ∧
          ∃ valuation : Valuation A, List.Forall₂
            (fun binding value => binding.2.bind valuation == value) answer.bindings values := by
  constructor
  · intro answer yields
    obtain ⟨state, rfl, way, derivation⟩ := (yields_iff room).mp yields
    refine ⟨names_answer distinct fits state, fun valuation => ?_⟩
    exact satisfied_of_derives distinct fits places derivation others valuation
  · intro values satisfied
    obtain ⟨state, way, derivation, valuation, instance_⟩ :=
      exists_derives_of_satisfied distinct fits places room satisfied
    exact ⟨query.answer state, (yields_iff room).mpr ⟨state, rfl, way, derivation⟩, valuation,
      instance_⟩

/-- A program whose only name stands for itself, so that what it stands for is never found. -/
abbrev endless : Program Int64 Unit := fun _ => ⟨[], .delay ()⟩

/-- A term is an operation on a new variable. -/
abbrev wraps (term : Term Int64) : Goal Int64 Unit :=
  .fresh 1 (fun _ => []) fun inner => .unify term (.op "f" inner)

/-- A term is an operation on a new variable, beside a goal that goes on forever. -/
abbrev wrapping (term : Term Int64) : Goal Int64 Unit := .disjunction [.delay (), wraps term]

/-- Wrapping a variable only places it. -/
theorem places_wrapping {index : UInt64} {scope : List UInt64} (there : index ∈ scope) :
    (wrapping (.var index)).Places endless scope := by
  refine ⟨fun _ _ _ => True, fun _ _ _ _ => trivial, trivial, ⟨rfl, ?_⟩, trivial⟩
  intro ones others counted countedOthers
  obtain ⟨one, rfl⟩ := List.length_eq_one_iff.mp counted
  obtain ⟨other, rfl⟩ := List.length_eq_one_iff.mp countedOthers
  exact ⟨.inl ⟨rfl, there⟩, rfl, .inr (List.mem_singleton.mpr rfl), trivial⟩

/-- There is room for the one variable that is new. -/
theorem not_overflows_wrapping {goal : Goal Int64 Unit} {state : State Int64}
    (full : Overflows endless goal state) (one : state.freshCount = 1) :
    goal ≠ .delay () ∧ goal ≠ wraps (.var 0) ∧ goal ≠ wrapping (.var 0) ∧
      ∀ left right, goal ≠ .unify left right := by
  induction full with
  | conjunction => exact ⟨nofun, nofun, nofun, nofun⟩
  | delay inner later => exact absurd rfl (later one).1
  | disjunction member inner later =>
    refine ⟨nofun, nofun, fun same => ?_, nofun⟩
    cases same
    rcases List.mem_cons.mp member with rfl | member
    · exact (later one).1 rfl
    · exact (later one).2.1 (List.mem_singleton.mp member)
  | here full =>
    refine ⟨nofun, fun same => ?_, nofun, nofun⟩
    cases same
    rw [State.allocate?, one] at full
    cases full
  | fresh allocated inner later =>
    refine ⟨nofun, fun same => ?_, nofun, nofun⟩
    cases same
    cases inner

/-- Where the first variable is `f(5)` it wraps something. -/
theorem holds_wrapping : (wrapping (.var 0)).Holds endless [0]
    (Valuation.assign .var [0] [.op "f" [.atom 5]]) := by
  refine .disjunction (List.mem_cons_of_mem _ (List.mem_singleton.mpr rfl)) ?_
  have new : ∀ index ∈ [(1 : UInt64)], index ∉ [(0 : UInt64)] := by
    intro index there
    rw [List.mem_singleton.mp there]
    decide
  have enough : [Term.atom (5 : Int64)].length = (1 : UInt64).toNat := rfl
  have equated : Valuation.Equates
      ((Valuation.assign .var [0] [.op "f" [.atom (5 : Int64)]]).assign [1] [.atom 5])
        (.var 0) (.op "f" [.var 1]) := by
    unfold Valuation.Equates
    decide
  exact .fresh rfl (List.nodup_singleton 1) new enough (.unify equated)

/-- Beside a delayed goal that goes on forever, `f(5)` is an instance of an answer to the question
what wraps something. -/
theorem instance_beside_endless_delay :
    let query : Query := ⟨["q"]⟩
    let build : List (Term Int64) → Built Int64 Unit :=
      fun vars => ⟨[], wrapping (vars.headD (.var 0))⟩
    query.names.Nodup ∧ query.names.length < UInt64.size ∧
      (build query.vars).goal.Places endless query.indices ∧
      ¬ Overflows endless (build query.vars).goal query.start ∧
      query.Satisfied endless build .var [.op "f" [.atom 5]] ∧
      ∃ answer, query.Yields endless build answer ∧ ∃ valuation : Valuation Int64,
        List.Forall₂ (fun binding value => binding.2.bind valuation == value) answer.bindings
          [.op "f" [.atom 5]] := by
  intro query build
  have distinct : query.names.Nodup := List.nodup_singleton "q"
  have fits : query.names.length < UInt64.size := by decide
  have there : (0 : UInt64) ∈ query.indices := by decide
  have places : (build query.vars).goal.Places endless query.indices := places_wrapping there
  have room : ¬ Overflows endless (build query.vars).goal query.start :=
    fun full => (not_overflows_wrapping full rfl).2.2.1 rfl
  have satisfied : query.Satisfied endless build .var [.op "f" [.atom 5]] :=
    ⟨rfl, holds_wrapping⟩
  exact ⟨distinct, fits, places, room, satisfied,
    (answers_are_solutions endless query build distinct fits places room .var).2 _ satisfied⟩

/-- Where the first variable is bound to an atom, the answer for it is the atom. -/
theorem bindings_answer_atom {A : Type} (name : String) (payload : A) :
    ((⟨[name]⟩ : Query).answer ⟨IntMap.insert IntMap.empty 0 (.atom payload), 1⟩).bindings =
      [(name, .atom payload)] := by
  have value : Substitution.value (IntMap.insert IntMap.empty 0 (.atom payload)) 0 =
      .atom payload := by cbv
  rw [bindings_answer (List.nodup_singleton name) (by simp [UInt64.size])]
  exact congrArg (fun value => [(name, value)]) value

/-- There is room for equations, as they have no new variables. -/
theorem not_overflows_equations {A δ : Type} [BEq A] [Decidable (ReflBEq A)]
    {program : Program A δ} {goals : List (Goal A δ)} {start : State A}
    (equations : ∀ goal ∈ goals, ∃ left right, goal = .unify left right) :
    ¬ Overflows program (.conjunction goals) start := by
  intro full
  cases full with
  | @conjunction before after goal _ _ _ _ inner =>
    obtain ⟨left, right, rfl⟩ := equations goal (by simp)
    cases inner

/-- A floating point number that is none differs from itself. To the question which `x` is equal to
itself and to the number, the answer is the number, which is not equal to the number; and where the
equations are exchanged there is no answer, not even the number, which makes both sides of each
equation one term. -/
theorem number_unlike_itself_answered :
    let number : Term Float := .atom (0.0 / 0.0)
    let program : Program Float Empty := Empty.elim
    let query : Query := ⟨["x"]⟩
    let build : List (Term Float) → Built Float Empty := fun vars => ⟨[], .conjunction
      [.unify (vars.headD number) (vars.headD number), .unify (vars.headD number) number]⟩
    let exchanged : List (Term Float) → Built Float Empty := fun vars => ⟨[], .conjunction
      [.unify (vars.headD number) number, .unify (vars.headD number) (vars.headD number)]⟩
    query.names.Nodup ∧ query.names.length < UInt64.size ∧
      (build query.vars).goal.Places program query.indices ∧
      ¬ Overflows program (build query.vars).goal query.start ∧
      (∃ answer, query.Yields program build answer ∧ ∀ others valuation : Valuation Float,
        ¬ query.Satisfied program build others
          (answer.bindings.map fun binding => binding.2.bind valuation)) ∧
      ∀ answer, ¬ query.Yields program exchanged answer := by
  intro number program query build exchanged
  let bound : Substitution Float := IntMap.insert IntMap.empty 0 number
  have acyclic : Substitution.Acyclic (IntMap.empty : Substitution Float) :=
    Substitution.acyclic_empty
  have unlike : ((0.0 / 0.0 : Float) == 0.0 / 0.0) = false := by decide
  have kept : unify (.var 0 : Term Float) (.var 0) IntMap.empty = .ok IntMap.empty := unify_var_self
  have equated : unify (.var 0) number IntMap.empty = .ok bound := unify_var_atom _
  have clashed : unify (.var 0) (.var 0) bound = .error .atoms := unify_var_self_of_unlike unlike
  have room : ¬ Overflows program (build query.vars).goal query.start :=
    not_overflows_equations (by simp)
  have roomExchanged : ¬ Overflows program (exchanged query.vars).goal query.start :=
    not_overflows_equations (by simp)
  have places : (build query.vars).goal.Places program query.indices := by
    refine ⟨fun _ _ _ => True, fun _ name _ _ => name.elim, ?_⟩
    exact ⟨⟨⟨rfl, by decide⟩, ⟨rfl, by decide⟩⟩, ⟨⟨rfl, by decide⟩, rfl⟩, trivial⟩
  refine ⟨List.nodup_singleton "x", by decide, places, room, ?unsound, ?incomplete⟩
  case unsound =>
    have first : Derives program (.unify (.var 0) (.var 0)) query.start query.start [] :=
      .unify ((unify?_eq_ok_iff acyclic).mpr kept)
    have second : Derives program (.unify (.var 0) number) query.start ⟨bound, 1⟩ [] :=
      .unify ((unify?_eq_ok_iff acyclic).mpr equated)
    have derived : Derives program (build query.vars).goal query.start ⟨bound, 1⟩ [] :=
      .conjunction (.cons first (.cons second .nil))
    refine ⟨_, (yields_iff room).mpr ⟨_, rfl, _, derived⟩, fun others valuation => ?_⟩
    rw [bindings_answer_atom]
    rintro ⟨_, holds⟩
    cases holds with
    | conjunction each =>
      cases each _ (List.mem_cons_self ..) with
      | unify equal =>
        have same : number == number := equal
        rw [Term.atom_beq_atom, unlike] at same
        cases same
  case incomplete =>
    intro answer yields
    obtain ⟨state, _, way, derivation⟩ := (yields_iff roomExchanged).mp yields
    cases derivation with
    | conjunction each =>
      cases each with
      | cons head tail =>
        cases head with
        | unify unified =>
          cases ((unify?_eq_ok_iff acyclic).mp unified).symm.trans equated
          cases tail with
          | cons head _ =>
            cases head with
            | unify unified =>
              cases ((unify?_eq_ok_iff (acyclic.unify equated)).mp unified).symm.trans clashed

end Query

end Relational
