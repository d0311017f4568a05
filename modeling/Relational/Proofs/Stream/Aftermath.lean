import Relational.Proofs.Stream.Failure
import Relational.Proofs.Stream.Following

/-!
# What a pull leaves behind that is given up

The values that an iterator has drawn lie before it in cells that are done, and where it is given up
they lie before work that was given up. All other iterators of the same stream go over the same
cells, and come to the same values and to the same place.
-/
namespace Relational

variable {α ε ρ : Type}

namespace Session

variable {routines : ρ → Plan α ε ρ} {bound : Nat} {session : Session α ε ρ}

section Standing

variable {heap after : Heap α ε ρ} {front rest pending : Stream α} {values : List α}
  {failing : CellId} {outs : List (Except Stop (Option α))}

/-- Pulling an iterator that is empty gives nothing and runs nothing. -/
theorem next_empty (handlers : Handlers α ε ρ) (bound : Nat) (heap : Heap α ε ρ) :
    Stream.Iterator.next handlers bound ⟨.empty⟩ heap = ⟨.ok none, ⟨.empty⟩, heap⟩ :=
  Stream.Iterator.next_of_none (uncons?_empty handlers bound heap)

/-- An empty iterator stays empty. -/
theorem tracks_empty (routines : ρ → Plan α ε ρ) (bound : Nat) :
    Tracks routines bound fun _ pending _ => pending = .empty := by
  refine ⟨fun _ empty => empty, ?_⟩
  rintro outs ⟨pending⟩ heap pull _ _ rfl pulled
  rw [next_empty] at pulled
  exact pulled ▸ rfl

/-- One more value is given. -/
theorem given_append (values : List α) (value : α) :
    given values ++ [.ok (some value)] = given (values ++ [value]) := by
  rw [given, given, List.map_append]
  rfl

/-- Where an iterator of a stream stands after what its pulls came to. -/
inductive Stands (bound : Nat) (front : Stream α) :
    List (Except Stop (Option α)) → Stream α → Heap α ε ρ → Prop where
  /-- It stands behind the values that it has drawn. -/
  | going {heap : Heap α ε ρ} {values : List α} {pending : Stream α}
    (yields : heap.Yields bound front values pending) :
    Stands bound front (given values) pending heap
  /-- It has come to the end. -/
  | ended {heap : Heap α ε ρ} {outs : List (Except Stop (Option α))} {values : List α}
    {rest : Stream α} (yields : heap.Yields bound front values rest)
    (ends : heap.Knows bound rest none) : Stands bound front outs .empty heap
  /-- It was given up. -/
  | lost {heap : Heap α ε ρ} {outs : List (Except Stop (Option α))} {stop : Stop}
    (stopped : .error stop ∈ outs) : Stands bound front outs .empty heap

/-- An iterator is always somewhere on its stream. -/
theorem tracks_stands (routines : ρ → Plan α ε ρ) (bound : Nat) (front : Stream α) :
    Tracks routines bound (Stands bound front) := by
  refine ⟨fun lives stands => ?_, ?_⟩
  · cases stands with
    | going yields => exact .going (yields.later lives)
    | ended yields ends => exact .ended (yields.later lives) (ends.later lives)
    | lost stopped => exact .lost stopped
  · intro outs iterator heap pull closed within stands pulled
    obtain ⟨pending⟩ := iterator
    cases stands with
    | going yields =>
      have lives := next_lives (handlers_last routines bound) bound ⟨pending⟩ heap
      have looked := looked_over routines bound bound closed within
      rw [pulled] at lives
      rcases ran : pending.uncons? (handlers routines bound) bound heap with
        ⟨_ | ⟨value, rest⟩, after⟩ | ⟨stop, after⟩
      · rw [Stream.Iterator.next_of_none ran] at pulled
        rw [ran] at looked
        subst pulled
        exact .ended (yields.later lives) looked
      · rw [Stream.Iterator.next_of_some ran] at pulled
        rw [ran] at looked
        subst pulled
        rw [given_append]
        exact .going ((yields.later lives).append (.cons looked (.nil rest)))
      · rw [Stream.Iterator.next_of_error ran] at pulled
        subst pulled
        exact .lost (List.mem_append_right _ (List.mem_singleton.mpr rfl))
    | ended yields ends =>
      rw [next_empty] at pulled
      subst pulled
      exact .ended yields ends
    | lost stopped =>
      rw [next_empty] at pulled
      subst pulled
      exact .lost (List.mem_append_left _ stopped)

/-- Where an iterator stands, after what its pulls came to, if so many values and then work that was
given up lie before the front of its stream. -/
inductive Faces (bound : Nat) (values : List α) (rest : Stream α) (failing : CellId) :
    List (Except Stop (Option α)) → Stream α → Heap α ε ρ → Prop where
  /-- Some values have been drawn and the others lie ahead. -/
  | ahead {heap : Heap α ε ρ} {before more : List α} {pending : Stream α}
    (split : values = before ++ more) (yields : heap.Yields bound pending more rest)
    (blocks : heap.Blocks failing bound rest) :
    Faces bound values rest failing (given before) pending heap
  /-- It was given up behind all the values. -/
  | broken {heap : Heap α ε ρ} (count : Nat) :
    Faces bound values rest failing
      (given values ++ .error (.fault .reentrant) :: List.replicate count (.ok none)) .empty heap

/-- An iterator that faces work that was given up draws the values before it and is given up
there. -/
theorem tracks_faces (routines : ρ → Plan α ε ρ) (bound : Nat) (values : List α) (rest : Stream α)
    (failing : CellId) : Tracks routines bound (Faces bound values rest failing) := by
  refine ⟨fun lives faces => ?_, ?_⟩
  · cases faces with
    | ahead split yields blocks => exact .ahead split (yields.later lives) (blocks.later lives)
    | broken count => exact .broken count
  · intro outs iterator heap pull closed within faces pulled
    obtain ⟨pending⟩ := iterator
    cases faces with
    | @ahead _ before more _ split yields blocks =>
      cases yields with
      | nil =>
        rw [Stream.Iterator.next_of_error (blocks.uncons? (Nat.le_refl bound))] at pulled
        rw [List.append_nil] at split
        subst pulled split
        exact .broken 0
      | @cons _ other _ value more first others =>
        rw [Stream.Iterator.next_of_some (first.uncons? (Nat.le_refl bound))] at pulled
        subst pulled
        rw [given_append]
        refine .ahead ?_ others blocks
        rw [split, List.append_assoc, List.singleton_append]
    | broken count =>
      rw [next_empty] at pulled
      subst pulled
      rw [List.append_assoc, List.cons_append, ← List.replicate_succ']
      exact .broken (count + 1)

/-- What pulls come to that go on behind the fault. -/
theorem brokenOff_of_behind (values : List α) (count : Nat) :
    brokenOff values (values.length + (count + 1)) =
      given values ++ .error (.fault .reentrant) :: List.replicate count (.ok none) := by
  have length : values.length = (given values).length := (List.length_map _).symm
  have less : min count (values.length + (count + 1)) = count := by omega
  rw [brokenOff, length, List.take_length_add_append, List.take_succ_cons, List.take_replicate,
    ← length, less]

/-- What the pulls of such an iterator come to. -/
theorem Faces.eq_brokenOff (faces : Faces bound values rest failing outs pending heap) :
    outs = brokenOff values outs.length := by
  cases faces with
  | @ahead _ before more _ split _ _ =>
    have all : given values = given before ++ given more := by
      rw [split]
      exact List.map_append
    rw [brokenOff, all, List.append_assoc, List.take_left]
  | broken count =>
    rw [List.length_append, List.length_cons, List.length_replicate, given, List.length_map,
      brokenOff_of_behind, given]

end Standing

section Failing

variable {number : Nat} {values : List α} {front rest pending : Stream α} {failing : CellId}
  {outs : List (Except Stop (Option α))}

/-- A pull that is given up was looking for the next value, and leaves its iterator empty. -/
theorem uncons?_of_stopped {stop : Stop} {after : Session α ε ρ}
    (stopped : session.perform routines bound (.pull number) = (.stopped stop, after)) :
    (session.iterator number).pending.uncons? (handlers routines bound) bound session.heap =
        .error stop after.heap ∧
      number < session.iterators.size ∧ (after.iterator number).pending = .empty := by
  have came : (Response.stopped stop).outcome? = _ :=
    (congrArg (·.1.outcome?) stopped).symm.trans (outcome?_pull session number)
  have left : after = _ := (congrArg (·.2) stopped).symm.trans
    (perform_pull_snd routines bound session number)
  cases ran : (session.iterator number).pending.uncons? (handlers routines bound) bound
    session.heap with
  | ok found heap =>
    cases found with
    | none =>
      rw [Stream.Iterator.next_of_none ran] at came
      cases came
    | some entry =>
      rw [Stream.Iterator.next_of_some ran] at came
      cases came
  | error other heap =>
    rw [Stream.Iterator.next_of_error ran] at came left
    cases came
    have there : number < session.iterators.size := by
      by_contra beyond
      have nothing : session.iterator number = ⟨.empty⟩ := by
        rw [iterator, Array.getD_eq_getD_getElem?,
          Array.getElem?_eq_none (Nat.le_of_not_lt beyond), Option.getD_none]
      rw [nothing, uncons?_empty] at ran
      cases ran
    subst left
    refine ⟨rfl, there, ?_⟩
    rw [iterator, Array.getD_eq_getD_getElem?, Array.getElem?_setIfInBounds_self_of_lt there,
      Option.getD_some]

/-- Where values and then work that was given up lie before a stream, an iterator of the stream that
was not given up itself faces them. -/
theorem Stands.faces {heap : Heap α ε ρ} (stands : Stands bound front outs pending heap)
    (whole : ∀ stop, .error stop ∉ outs) (yields : heap.Yields bound front values rest)
    (blocks : heap.Blocks failing bound rest) :
    Faces bound values rest failing outs pending heap := by
  cases stands with
  | going drawn =>
    obtain ⟨more, split, ahead⟩ := yields.before_blocks blocks drawn
    exact .ahead split ahead blocks
  | ended drawn ends =>
    obtain ⟨more, _, ahead⟩ := yields.before_blocks blocks drawn
    cases ahead with
    | nil => exact absurd ends blocks.not_knows
    | cons first _ => cases first.unique ends
  | lost stopped => exact absurd stopped (whole _)

/-- Pulling an iterator that is empty leaves a session as it is. -/
theorem perform_pull_empty (there : number < session.iterators.size)
    (empty : (session.iterator number).pending = .empty) :
    session.iterator number = ⟨.empty⟩ ∧
      session.perform routines bound (.pull number) = (.pulled none ⟨.empty⟩, session) := by
  have stands : session.iterator number = ⟨.empty⟩ := congrArg Stream.Iterator.mk empty
  have same : session.iterators.setIfInBounds number ⟨.empty⟩ = session.iterators := by
    have held : session.iterators[number] = ⟨.empty⟩ := by
      rw [← stands, iterator, Array.getD_eq_getD_getElem?, Array.getElem?_eq_getElem there,
        Option.getD_some]
    rw [Array.setIfInBounds_def, dif_pos there, ← held, Array.set_getElem_self]
  refine ⟨stands, ?_⟩
  unfold iterator at stands
  simp only [perform, performWith, stands, next_empty, same]

/-- A pull that is given up leaves its iterator empty for good, gives up the work that was under way
for good, and leaves everything that was done as it was. -/
theorem aftermath_of_stopped {before failed late : Session α ε ρ} {stop : Stop}
    (contained : before.Contained) (orderly : before.heap.Orderly)
    (fails : before.perform routines bound (.pull number) = (.stopped stop, failed))
    {later : List (Action α ε ρ)} {responses : List (Response α)}
    (continues : performAll routines bound later failed = (responses, late)) :
    Aftermath routines bound number before failed late := by
  obtain ⟨_, there, emptied⟩ := uncons?_of_stopped fails
  obtain ⟨contained, lives, grows⟩ := contained.leaves fails
  have lives' := performAllWith_lives (handlers_last routines bound) bound later failed
  have lives' : failed.heap.Lives late.heap := (congrArg (·.2.heap) continues) ▸ lives'
  have there := Nat.lt_of_lt_of_le there grows
  have there' := size_performAll routines bound later failed
  rw [continues] at there'
  have orderly := orderly.course lives.course
  have goesOn := lives'.goesOn orderly
  refine ⟨?_, lives.course.done, fun known => ?_, fun running => ?_⟩
  · have empty : (late.iterator number).pending = .empty :=
      (tracks_empty routines bound).performAll contained there [] emptied continues
    exact perform_pull_empty (Nat.lt_of_lt_of_le there there') empty
  · obtain ⟨gives, count⟩ := goesOn.done known
    exact ⟨lives'.course.done known, gives, count⟩
  · obtain ⟨gives, count⟩ := goesOn.running running
    exact ⟨lives'.running running, gives,
      (((Heap.Lives.refl failed.heap).goesOn orderly).running running).2, count⟩

section Rest

variable {one other : Nat} {earlier later : List (Action α ε ρ)}
  {early late : List (Response α) × Session α ε ρ} {failed : Session α ε ρ} {fault : Fault}

/-- A pull at which a fault is met had values before it, which its iterator has drawn, and behind
them work that was given up. -/
theorem faced_by_stopped (starts : performAll routines bound earlier empty = early)
    (fails : early.2.perform routines bound (.pull number) = (.stopped (.fault fault), failed)) :
    ∃ front values rest failing,
      .iterator number ⟨front⟩ ∈ early.1 ∧ outcomes number earlier early.1 = given values ∧
        failed.heap.Yields bound front values rest ∧ failed.heap.Blocks failing bound rest := by
  have contained : early.2.Contained := starts ▸ contained_empty.performAll earlier
  obtain ⟨_, lives, _⟩ := contained.leaves fails
  obtain ⟨ran, there, _⟩ := uncons?_of_stopped fails
  have made := exists_made earlier empty (starts ▸ there)
  rw [starts] at made
  obtain ⟨⟨front⟩, member⟩ := made.resolve_left (Nat.not_lt_zero number)
  have looked := looked_over routines bound bound contained.closed
    (contained.within.iterator trivial number)
  rw [ran] at looked
  obtain ⟨failing, blocks⟩ := looked
  obtain ⟨_, stands⟩ := (tracks_stands routines bound front).made contained_empty
    (Nat.zero_le number) (.going (.nil front)) starts member
  generalize outcomes number earlier early.1 = outs at stands ⊢
  generalize (early.2.iterator number).pending = pending at stands ran blocks
  cases stands with
  | @going _ values _ yields =>
    exact ⟨front, values, pending, failing, member, rfl, yields.later lives, blocks⟩
  | ended | lost =>
    rw [uncons?_empty] at ran
    cases ran

/-- Any iterator of the stream that was made before the fault and was not given up itself draws the
values before the work that was given up, and is given up there. -/
theorem brokenOff_of_early (starts : performAll routines bound earlier empty = early)
    (fails : early.2.perform routines bound (.pull one) = (.stopped (.fault fault), failed))
    (continues : performAll routines bound later failed = late)
    (yields : failed.heap.Yields bound front values rest)
    (blocks : failed.heap.Blocks failing bound rest) (apart : other ≠ one)
    (member : .iterator other ⟨front⟩ ∈ early.1)
    (whole : ∀ stop, .error stop ∉ outcomes other earlier early.1) :
    let all := outcomes other (earlier ++ .pull one :: later)
      (early.1 ++ .stopped (.fault fault) :: late.1)
    all = brokenOff values all.length := by
  have contained : early.2.Contained := starts ▸ contained_empty.performAll earlier
  obtain ⟨contained', lives, grows⟩ := contained.leaves fails
  obtain ⟨there, stands⟩ := (tracks_stands routines bound front).made contained_empty
    (Nat.zero_le other) (.going (.nil front)) starts member
  have unmoved : Action.pull one ≠ (.pull other : Action α ε ρ) := by
    intro same
    exact apart (Action.pull.inj same).symm
  have same : failed.iterator other = early.2.iterator other :=
    (congrArg (·.2.iterator other) fails) ▸ iterator_perform there unmoved
  have faces := ((tracks_stands routines bound front).later lives stands).faces whole yields blocks
  rw [← same] at faces
  have faces := (tracks_faces routines bound values rest failing).performAll contained'
    (Nat.lt_of_lt_of_le there grows) _ faces continues
  have length : earlier.length = early.1.length := by
    rw [← starts, length_performAll]
  intro all
  have split : all = outcomes other earlier early.1 ++ attempts other (.pull one :: later)
      (.stopped (.fault fault) :: late.1) :=
    outcomes_append_of_makes length ⟨_, member, makes_iterator other ⟨front⟩⟩
  rw [attempts_of_ne unmoved] at split
  rw [← split] at faces
  exact faces.eq_brokenOff

/-- So does any iterator of the stream that is made after the fault. Its number is larger than all
that were given out before. -/
theorem brokenOff_of_late (starts : performAll routines bound earlier empty = early)
    (fails : early.2.perform routines bound (.pull one) = (.stopped (.fault fault), failed))
    (continues : performAll routines bound later failed = late)
    (yields : failed.heap.Yields bound front values rest)
    (blocks : failed.heap.Blocks failing bound rest)
    (member : .iterator other ⟨front⟩ ∈ late.1) :
    let all := outcomes other (earlier ++ .pull one :: later)
      (early.1 ++ .stopped (.fault fault) :: late.1)
    all = brokenOff values all.length := by
  have contained : early.2.Contained := starts ▸ contained_empty.performAll earlier
  obtain ⟨contained', _, grows⟩ := contained.leaves fails
  have free := (range_of_makes later failed (continues ▸ member) (makes_iterator other ⟨front⟩)).1
  have new : ∀ response ∈ early.1, ¬ response.makes other := by
    intro response earlierMade makes
    have taken := (range_of_makes earlier empty (starts ▸ earlierMade) makes).2
    rw [starts] at taken
    omega
  have faces : Faces bound values rest failing [] front failed.heap :=
    .ahead (List.nil_append values).symm yields blocks
  obtain ⟨_, faces⟩ := (tracks_faces routines bound values rest failing).made contained' free faces
    continues member
  have length : earlier.length = early.1.length := by
    rw [← starts, length_performAll]
  intro all
  have split : all = outcomes other later late.1 := outcomes_append_of_not_makes length new
  rw [← split] at faces
  exact faces.eq_brokenOff

end Rest

/-- A pull at which a fault is met leaves a consistent picture. Its iterator is empty from then on:
pulling it gives nothing and nothing else happens. All work that was under way is given up: its
cells stay without a stream, and whoever forces one of them gives up as well, with one and the same
message and without running anything. All cells that were done keep their streams. And any other
iterator of the same stream, made before or after, that had not been given up itself comes to the
values that the first one had drawn, to exactly these, and is given up behind them, at a cell whose
work was given up. -/
theorem fault_leaves_rest_whole (routines : ρ → Plan α ε ρ) (bound one : Nat)
    (earlier later : List (Action α ε ρ)) {fault : Fault}
    {early late : List (Response α) × Session α ε ρ} {failed : Session α ε ρ}
    (starts : performAll routines bound earlier empty = early)
    (fails : early.2.perform routines bound (.pull one) = (.stopped (.fault fault), failed))
    (continues : performAll routines bound later failed = late) :
    Aftermath routines bound one early.2 failed late.2 ∧
      ∃ front values rest failing,
        .iterator one ⟨front⟩ ∈ early.1 ∧ outcomes one earlier early.1 = given values ∧
          failed.heap.Yields bound front values rest ∧ failed.heap.Blocks failing bound rest ∧
            ∀ other ≠ one, .iterator other ⟨front⟩ ∈ early.1 ++ late.1 →
              (∀ stop, .error stop ∉ outcomes other earlier early.1) →
                let all := outcomes other (earlier ++ .pull one :: later)
                  (early.1 ++ .stopped (.fault fault) :: late.1)
                all = brokenOff values all.length := by
  have contained : early.2.Contained := starts ▸ contained_empty.performAll earlier
  have lives := performAllWith_lives (handlers_last routines bound) bound earlier empty
  have orderly : early.2.heap.Orderly :=
    Heap.orderly_empty.course ((congrArg (·.2.heap) starts) ▸ lives.course)
  refine ⟨aftermath_of_stopped contained orderly fails continues, ?_⟩
  obtain ⟨front, values, rest, failing, own, drawn, yields, blocks⟩ :=
    faced_by_stopped starts fails
  refine ⟨front, values, rest, failing, own, drawn, yields, blocks, ?_⟩
  intro other apart member whole
  rcases List.mem_append.mp member with member | member
  · exact brokenOff_of_early starts fails continues yields blocks apart member whole
  · exact brokenOff_of_late starts fails continues yields blocks member

/-- A stream of two values is made behind which it fails, while values of a merge are mapped. Of its
two iterators the first draws both values. -/
def drawnByFirst : List (Action Nat Empty Empty) :=
  [.make (.mapcat (.merge (.cons 1 (.unit 2)) (.suspend (.fail (.raised "given up")))) .unit),
    .iterate 0, .iterate 0, .pull 0, .pull 0]

/-- The second iterator is pulled. -/
def drawnBySecond : List (Action Nat Empty Empty) :=
  [.pull 1, .pull 1, .pull 1, .pull 1]

/-- The next pull of the first iterator fails. The second one draws both values and fails behind
them, because the work it comes to was given up. -/
theorem second_fails_behind_first :
    let early := performAll Empty.elim 9 drawnByFirst empty
    let failed := early.2.perform Empty.elim 9 (.pull 0)
    let late := performAll Empty.elim 9 drawnBySecond failed.2
    failed.1 = .stopped (.fault (.raised "given up")) ∧
      Aftermath Empty.elim 9 0 early.2 failed.2 late.2 ∧
        outcomes 1 (drawnByFirst ++ .pull 0 :: drawnBySecond) (early.1 ++ failed.1 :: late.1) =
          brokenOff [1, 2] 4 := by
  intro early failed late
  have stopped : failed.1 = .stopped (.fault (.raised "given up")) := by decide +kernel
  have fails : failed = (.stopped (.fault (.raised "given up")), failed.2) := by rw [← stopped]
  obtain ⟨picture, front, values, rest, failing, own, drawn, _, _, others⟩ :=
    fault_leaves_rest_whole Empty.elim 9 0 drawnByFirst drawnBySecond rfl fails rfl
  have first : ∀ response ∈ early.1, response.makes 0 → response = .iterator 0 ⟨.cons 1 6⟩ := by
    decide +kernel
  have second : .iterator 1 ⟨.cons 1 6⟩ ∈ early.1 := by decide +kernel
  have unpulled : outcomes 1 drawnByFirst early.1 = [] := by decide +kernel
  have two : outcomes 0 drawnByFirst early.1 = given [1, 2] := by decide +kernel
  have four : (outcomes 1 (drawnByFirst ++ .pull 0 :: drawnBySecond)
      (early.1 ++ failed.1 :: late.1)).length = 4 := by decide +kernel
  cases first _ own (makes_iterator 0 ⟨front⟩)
  have same : values = [1, 2] := by
    refine List.map_injective_iff.mpr (fun value value' same => ?_) (drawn.symm.trans two)
    exact Option.some.inj (Except.ok.inj same)
  have whole : ∀ stop, .error stop ∉ outcomes 1 drawnByFirst early.1 := by
    intro stop
    rw [unpulled]
    exact List.not_mem_nil
  have broken := others 1 Nat.one_ne_zero (List.mem_append_left _ second) whole
  rw [← stopped, same] at broken
  refine ⟨stopped, picture, ?_⟩
  rw [← four]
  exact broken

end Failing

end Session

end Relational
