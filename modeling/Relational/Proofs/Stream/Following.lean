import Relational.Proofs.Stream.Consumption
import Relational.Proofs.Stream.Containment
import Relational.Stream.Failure

/-!
# Iterators followed through sessions

Every action of a session has its response, and an iterator gets the first number that is free. From
then on nothing moves it but its own pulls, and whatever else is run only adds to the heap. So what
is kept by these two holds of what the pulls of an iterator come to and of where it stands, from
when it is made and whatever is done in between.
-/
namespace Relational

variable {α ε ρ : Type}

namespace Session

variable {routines : ρ → Plan α ε ρ} {bound : Nat} {session : Session α ε ρ}

section Containment

/-- A session on a closed heap whose streams and iterators refer to cells that are there. -/
structure Contained (session : Session α ε ρ) : Prop where
  /-- The heap is closed. -/
  closed : session.heap.Closed
  /-- All streams refer to cells that are there. -/
  within : session.All fun stream => stream.Within session.heap.cells.size

/-- The session without streams is contained. -/
theorem contained_empty : (empty : Session α ε ρ).Contained := ⟨Heap.closed_empty, all_empty _⟩

/-- A contained session stays contained where its heap has grown. -/
theorem Contained.grow (contained : session.Contained) {heap : Heap α ε ρ} (closed : heap.Closed)
    (le : session.heap.cells.size ≤ heap.cells.size) : Contained { session with heap } :=
  ⟨closed, contained.within.imp (fun within => within.mono le) heap⟩

/-- A contained session stays contained where a stream is made. -/
theorem Contained.keep (contained : session.Contained) {run : Run α ε ρ (Stream α)}
    (stays : run.Stays Stream.Within session.heap) : (session.keep run).2.Contained := by
  have closed := stays.closed
  have grows := stays.grows
  cases ran : run session.heap with
  | ok made heap =>
    rw [ran] at closed grows
    have same : (session.keep run).2 =
        ⟨session.streams.push made, session.iterators, heap⟩ := by
      simp only [Session.keep, ran]
    rw [same]
    exact ⟨closed, (contained.grow closed grows).within.make (stays.result ran)⟩
  | error stop heap =>
    rw [ran] at closed grows
    have same : (session.keep run).2 = { session with heap } := by
      simp only [Session.keep, ran]
    rw [same]
    exact contained.grow closed grows

/-- What a pull leaves. -/
theorem perform_pull_snd (routines : ρ → Plan α ε ρ) (bound : Nat) (session : Session α ε ρ)
    (number : Nat) : (session.perform routines bound (.pull number)).2 =
      let pull := (session.iterator number).next (handlers routines bound) bound session.heap
      ⟨session.streams, session.iterators.setIfInBounds number pull.iterator, pull.heap⟩ := by
  simp only [perform, performWith, iterator]
  split <;> rfl

/-- What a pull comes to. -/
theorem outcome?_pull (session : Session α ε ρ) (number : Nat) :
    (session.perform routines bound (.pull number)).1.outcome? = some
      ((session.iterator number).next (handlers routines bound) bound session.heap).outcome := by
  simp only [perform, performWith, iterator]
  split <;> rename_i same <;> rw [same] <;> rfl

/-- A contained session stays contained. -/
theorem Contained.perform (contained : session.Contained) (action : Action α ε ρ) :
    (session.perform routines bound action).2.Contained := by
  have inside := Handlers.contained_handlers routines bound
  obtain ⟨closed, within⟩ := contained
  cases action with
  | make plan =>
    refine Contained.keep ⟨closed, within⟩ ?_
    exact inside.plan plan (fun stream member => within.streams stream
      (Array.mem_toList_iff.mp member)) session.heap closed (Nat.le_refl _)
  | force number =>
    refine Contained.keep ⟨closed, within⟩ ?_
    exact inside.step (within.stream trivial number) session.heap closed (Nat.le_refl _)
  | drop number => exact ⟨closed, within.drop trivial number⟩
  | iterate number => exact ⟨closed, within.iterate (within.stream trivial number)⟩
  | pull number =>
    have stays := Stream.Iterator.pullStays inside bound closed (within.iterator trivial number)
    rw [perform_pull_snd]
    exact ⟨stays.closed,
      (Contained.grow ⟨closed, within⟩ stays.closed stays.grows).within.move stays.within number⟩

/-- A contained session stays contained through any actions. -/
theorem Contained.performAll (contained : session.Contained) (actions : List (Action α ε ρ)) :
    (session.performAll routines bound actions).2.Contained := by
  induction actions generalizing session with
  | nil => exact contained
  | cons action actions later =>
    rw [performAll_cons]
    exact later (contained.perform action)

end Containment

section Responding

variable {number : Nat} {action : Action α ε ρ} {actions actions' : List (Action α ε ρ)}
  {response : Response α} {responses responses' : List (Response α)}

/-- Every action has its response. -/
theorem length_performAll (actions : List (Action α ε ρ)) (session : Session α ε ρ) :
    (performAll routines bound actions session).1.length = actions.length := by
  induction actions generalizing session with
  | nil => rfl
  | cons action actions later =>
    rw [performAll_cons, List.length_cons, List.length_cons, later]

/-- Where nothing is done there are no attempts. -/
theorem attempts_nil (number : Nat) :
    attempts number ([] : List (Action α ε ρ)) ([] : List (Response α)) = [] :=
  rfl

/-- A pull is an attempt. -/
theorem attempts_pull (number : Nat) (actions : List (Action α ε ρ)) (response : Response α)
    (responses : List (Response α)) :
    attempts number (.pull number :: actions) (response :: responses) =
      response.outcome?.toList ++ attempts number actions responses := by
  unfold attempts
  rw [List.zip_cons_cons, List.filterMap_cons]
  simp only [if_true]
  cases response.outcome? <;> rfl

/-- Nothing else is an attempt. -/
theorem attempts_of_ne (apart : action ≠ .pull number) (actions : List (Action α ε ρ))
    (response : Response α) (responses : List (Response α)) :
    attempts number (action :: actions) (response :: responses) =
      attempts number actions responses := by
  unfold attempts
  rw [List.zip_cons_cons, List.filterMap_cons_none]
  cases action with
  | pull other => exact if_neg fun same => apart (congrArg Action.pull same)
  | make | force | drop | iterate => rfl

/-- Attempts come one after another. -/
theorem attempts_append (same : actions.length = responses.length) :
    attempts number (actions ++ actions') (responses ++ responses') =
      attempts number actions responses ++ attempts number actions' responses' := by
  unfold attempts
  rw [List.zip_append same, List.filterMap_append]

/-- Once an iterator is made, all that its pulls come to counts. -/
theorem outcomes_append_of_makes (same : actions.length = responses.length)
    (made : ∃ response ∈ responses, response.makes number) :
    outcomes number (actions ++ actions') (responses ++ responses') =
      outcomes number actions responses ++ attempts number actions' responses' := by
  induction actions generalizing responses with
  | nil =>
    obtain ⟨response, member, _⟩ := made
    rw [List.length_eq_zero_iff.mp same.symm] at member
    exact absurd member List.not_mem_nil
  | cons action actions later =>
    cases responses with
    | nil => cases same
    | cons response responses =>
      have same := Nat.succ.inj same
      rw [List.cons_append, List.cons_append, outcomes, outcomes]
      by_cases here : response.makes number
      · rw [if_pos here, if_pos here, attempts_append same]
      · obtain ⟨other, member, makes⟩ := made
        rcases List.mem_cons.mp member with rfl | member
        · exact absurd makes here
        · rw [if_neg here, if_neg here, later same ⟨other, member, makes⟩]

/-- Before an iterator is made nothing counts. -/
theorem outcomes_append_of_not_makes (same : actions.length = responses.length)
    (new : ∀ response ∈ responses, ¬ response.makes number) :
    outcomes number (actions ++ actions') (responses ++ responses') =
      outcomes number actions' responses' := by
  induction actions generalizing responses with
  | nil =>
    rw [List.length_eq_zero_iff.mp same.symm]
    rfl
  | cons action actions later =>
    cases responses with
    | nil => cases same
    | cons response responses =>
      obtain ⟨first, new⟩ := List.forall_mem_cons.mp new
      rw [List.cons_append, List.cons_append, outcomes, if_neg first]
      exact later (Nat.succ.inj same) new

/-- Where an iterator is made the response says so. -/
theorem makes_iterator (number : Nat) (made : Stream.Iterator α) :
    (Response.iterator number made).makes number = true :=
  beq_self_eq_true number

/-- Making a stream makes no iterator. -/
theorem iterators_keep (session : Session α ε ρ) (run : Run α ε ρ (Stream α)) :
    (session.keep run).2.iterators = session.iterators ∧
      ∀ number, ¬ (session.keep run).1.makes number := by
  simp only [keep]
  split
  · exact ⟨rfl, fun _ => Bool.false_ne_true⟩
  · exact ⟨rfl, fun _ => Bool.false_ne_true⟩

/-- What an action does to iterators: it makes one with the first number that is free, or pulls one,
or leaves all of them as they are. -/
theorem perform_cases (routines : ρ → Plan α ε ρ) (bound : Nat) (session : Session α ε ρ)
    (action : Action α ε ρ) :
    (∃ made, (session.perform routines bound action).1 = .iterator session.iterators.size made ∧
      (session.perform routines bound action).2.iterators = session.iterators.push made ∧
      ∀ number, action ≠ .pull number) ∨
    (∀ number, ¬ (session.perform routines bound action).1.makes number) ∧
      ((∃ number left, action = .pull number ∧
        (session.perform routines bound action).2.iterators =
          session.iterators.setIfInBounds number left) ∨
        (session.perform routines bound action).2.iterators = session.iterators) := by
  cases action with
  | make plan =>
    obtain ⟨same, new⟩ := session.iterators_keep
      (plan.eval (handlers routines bound) session.streams.toList)
    exact .inr ⟨new, .inr same⟩
  | force number =>
    obtain ⟨same, new⟩ := session.iterators_keep
      ((session.stream number).step (handlers routines bound))
    exact .inr ⟨new, .inr same⟩
  | drop number => exact .inr ⟨fun _ => Bool.false_ne_true, .inr rfl⟩
  | iterate number =>
    refine .inl ⟨⟨session.stream number⟩, rfl, rfl, fun other impossible => ?_⟩
    cases impossible
  | pull number =>
    have left := congrArg iterators (perform_pull_snd routines bound session number)
    refine .inr ⟨fun other => ?_, .inl ⟨number, _, rfl, left⟩⟩
    simp only [perform, performWith]
    split <;> exact Bool.false_ne_true

/-- No iterator goes. -/
theorem size_perform (routines : ρ → Plan α ε ρ) (bound : Nat) (session : Session α ε ρ)
    (action : Action α ε ρ) :
    session.iterators.size ≤ (session.perform routines bound action).2.iterators.size := by
  rcases perform_cases routines bound session action with
    ⟨made, _, same, _⟩ | ⟨_, ⟨number, left, _, same⟩ | same⟩
  · rw [same, Array.size_push]
    exact Nat.le_succ _
  · rw [same, Array.size_setIfInBounds]
  · rw [same]

/-- No iterator goes. -/
theorem size_performAll (routines : ρ → Plan α ε ρ) (bound : Nat) (actions : List (Action α ε ρ))
    (session : Session α ε ρ) : session.iterators.size ≤
      (performAll routines bound actions session).2.iterators.size := by
  induction actions generalizing session with
  | nil => exact Nat.le_refl _
  | cons action actions later =>
    rw [performAll_cons]
    exact Nat.le_trans (size_perform routines bound session action) (later _)

/-- An iterator that is made has the first number that is free. -/
theorem size_of_makes (makes : (session.perform routines bound action).1.makes number) :
    number = session.iterators.size ∧
      (session.perform routines bound action).2.iterators.size = number + 1 := by
  rcases perform_cases routines bound session action with ⟨made, response, same, _⟩ | ⟨new, _⟩
  · rw [response, Response.makes, beq_iff_eq] at makes
    rw [same, Array.size_push, makes]
    exact ⟨rfl, rfl⟩
  · exact absurd makes (new number)

/-- An iterator is there afterwards if it was there before or is made. -/
theorem exists_of_lt_size
    (there : number < (session.perform routines bound action).2.iterators.size) :
    number < session.iterators.size ∨
      ∃ made, (session.perform routines bound action).1 = .iterator number made := by
  rcases perform_cases routines bound session action with
    ⟨made, response, same, _⟩ | ⟨_, ⟨other, left, _, same⟩ | same⟩
  · rw [same, Array.size_push] at there
    rcases Nat.lt_succ_iff_lt_or_eq.mp there with before | rfl
    · exact .inl before
    · exact .inr ⟨made, response⟩
  · rw [same, Array.size_setIfInBounds] at there
    exact .inl there
  · exact .inl (same ▸ there)

/-- All iterators that actions make have numbers that are free before and taken afterwards. -/
theorem range_of_makes (actions : List (Action α ε ρ)) (session : Session α ε ρ)
    (member : response ∈ (performAll routines bound actions session).1)
    (makes : response.makes number) : session.iterators.size ≤ number ∧
      number < (performAll routines bound actions session).2.iterators.size := by
  induction actions generalizing session with
  | nil => exact absurd member List.not_mem_nil
  | cons action actions later =>
    rw [performAll_cons] at member ⊢
    have grows := size_perform routines bound session action
    have grows' := size_performAll routines bound actions
      (session.perform routines bound action).2
    rcases List.mem_cons.mp member with rfl | member
    · obtain ⟨free, taken⟩ := size_of_makes makes
      exact ⟨Nat.le_of_eq free.symm, Nat.lt_of_lt_of_le (by omega) grows'⟩
    · obtain ⟨free, taken⟩ := later _ member
      exact ⟨Nat.le_trans grows free, taken⟩

/-- Every iterator that is there afterwards was there before or is made. -/
theorem exists_made (actions : List (Action α ε ρ)) (session : Session α ε ρ)
    (there : number < (performAll routines bound actions session).2.iterators.size) :
    number < session.iterators.size ∨
      ∃ made, .iterator number made ∈ (performAll routines bound actions session).1 := by
  induction actions generalizing session with
  | nil => exact .inl there
  | cons action actions later =>
    rw [performAll_cons] at there ⊢
    rcases later _ there with there | ⟨made, member⟩
    · rcases exists_of_lt_size there with before | ⟨made, response⟩
      · exact .inl before
      · exact .inr ⟨made, List.mem_cons.mpr (.inl response.symm)⟩
    · exact .inr ⟨made, List.mem_cons_of_mem _ member⟩

/-- An iterator that is made has its number. -/
theorem iterator_made {made : Stream.Iterator α}
    (response : (session.perform routines bound action).1 = .iterator number made) :
    (session.perform routines bound action).2.iterator number = made := by
  rcases perform_cases routines bound session action with ⟨other, response', same, _⟩ | ⟨none, _⟩
  · obtain ⟨rfl, rfl⟩ := Response.iterator.inj (response.symm.trans response')
    rw [iterator, same, Array.getD_eq_getD_getElem?, Array.getElem?_push_size, Option.getD_some]
  · exact absurd (response ▸ makes_iterator number made) (none number)

/-- Others do not move an iterator. -/
theorem iterator_perform (there : number < session.iterators.size)
    (apart : action ≠ .pull number) :
    (session.perform routines bound action).2.iterator number = session.iterator number := by
  unfold iterator
  rw [Array.getD_eq_getD_getElem?, Array.getD_eq_getD_getElem?]
  rcases perform_cases routines bound session action with
    ⟨made, _, same, _⟩ | ⟨_, ⟨other, left, rfl, same⟩ | same⟩
  · rw [same, Array.getElem?_push, if_neg (Nat.ne_of_lt there)]
  · have moved : other ≠ number := fun same => apart (congrArg Action.pull same)
    rw [same, Array.getElem?_setIfInBounds_ne moved]
  · rw [same]

/-- What an action leaves of a contained session: nothing that was known of its cells is lost, and
none of its iterators. -/
theorem Contained.leaves (contained : session.Contained) {after : Session α ε ρ}
    (performs : session.perform routines bound action = (response, after)) :
    after.Contained ∧ session.heap.Lives after.heap ∧
      session.iterators.size ≤ after.iterators.size := by
  obtain rfl : (session.perform routines bound action).2 = after := congrArg Prod.snd performs
  exact ⟨contained.perform action,
    performWith_lives (handlers_last routines bound) bound action session,
    size_perform routines bound session action⟩

end Responding

section Tracking

variable {inv : List (Except Stop (Option α)) → Stream α → Heap α ε ρ → Prop} {number : Nat}
  {outs : List (Except Stop (Option α))}

/-- Something is kept of what the pulls of an iterator came to, of what it stands at and of the
heap, whatever else is run and whenever the iterator is pulled. -/
structure Tracks (routines : ρ → Plan α ε ρ) (bound : Nat)
    (inv : List (Except Stop (Option α)) → Stream α → Heap α ε ρ → Prop) : Prop where
  /-- Whatever is run. -/
  later : ∀ {outs pending heap after}, heap.Lives after → inv outs pending heap →
    inv outs pending after
  /-- Where the iterator is pulled. -/
  pull : ∀ {outs} {iterator : Stream.Iterator α} {heap : Heap α ε ρ}
    {pull : Stream.Pull α ε ρ (Option α)}, heap.Closed →
      iterator.pending.Within heap.cells.size → inv outs iterator.pending heap →
        iterator.next (handlers routines bound) bound heap = pull →
          inv (outs ++ [pull.outcome]) pull.iterator.pending pull.heap

/-- It is kept through an action. -/
theorem Tracks.perform (tracks : Tracks routines bound inv) (contained : session.Contained)
    (there : number < session.iterators.size)
    (holds : inv outs (session.iterator number).pending session.heap) (action : Action α ε ρ) :
    let after := session.perform routines bound action
    inv (outs ++ attempts number [action] [after.1]) (after.2.iterator number).pending
      after.2.heap := by
  intro after
  by_cases own : action = .pull number
  · subst own
    have pulled := tracks.pull contained.closed (contained.within.iterator trivial number) holds rfl
    have left := perform_pull_snd routines bound session number
    have moved : after.2.iterator number =
        ((session.iterator number).next (handlers routines bound) bound session.heap).iterator := by
      rw [left, iterator, Array.getD_eq_getD_getElem?,
        Array.getElem?_setIfInBounds_self_of_lt there, Option.getD_some]
    rw [attempts_pull, outcome?_pull, moved, left]
    exact pulled
  · have lives := performWith_lives (handlers_last routines bound) bound action session
    rw [attempts_of_ne own, iterator_perform there own, attempts_nil, List.append_nil]
    exact tracks.later lives holds

/-- It is kept through any actions. -/
theorem Tracks.performAll (tracks : Tracks routines bound inv) (contained : session.Contained)
    (there : number < session.iterators.size) (outs : List (Except Stop (Option α)))
    (holds : inv outs (session.iterator number).pending session.heap)
    {actions : List (Action α ε ρ)} {after : List (Response α) × Session α ε ρ}
    (performs : Session.performAll routines bound actions session = after) :
    inv (outs ++ attempts number actions after.1) (after.2.iterator number).pending
      after.2.heap := by
  subst performs
  induction actions generalizing session outs with
  | nil =>
    rw [Session.performAll, performAllWith, attempts_nil, List.append_nil]
    exact holds
  | cons action actions others =>
    have first := tracks.perform contained there holds action
    have there := Nat.lt_of_lt_of_le there (size_perform routines bound session action)
    have rest := others (contained.perform action) there _ first
    rw [performAll_cons]
    rw [List.append_assoc, ← attempts_append rfl] at rest
    exact rest

/-- It is kept from when the iterator is made, if it holds at the front of the stream. No other
iterator gets the number, so the one that is made stands at the front. -/
theorem Tracks.made (tracks : Tracks routines bound inv) (contained : session.Contained)
    (new : session.iterators.size ≤ number) {front : Stream.Iterator α}
    (holds : inv [] front.pending session.heap) {actions : List (Action α ε ρ)}
    {after : List (Response α) × Session α ε ρ}
    (performs : Session.performAll routines bound actions session = after)
    (made : .iterator number front ∈ after.1) :
    number < after.2.iterators.size ∧
      inv (outcomes number actions after.1) (after.2.iterator number).pending after.2.heap := by
  subst performs
  induction actions generalizing session with
  | nil => exact absurd made List.not_mem_nil
  | cons action actions later =>
    have holds := tracks.later
      (performWith_lives (handlers_last routines bound) bound action session) holds
    have contained : (session.perform routines bound action).2.Contained :=
      contained.perform action
    rw [performAll_cons] at made ⊢
    simp only [outcomes]
    by_cases here : (session.perform routines bound action).1.makes number
    · obtain ⟨same, more⟩ := size_of_makes here
      have first : (session.perform routines bound action).1 = .iterator number front := by
        rcases List.mem_cons.mp made with first | again
        · exact first.symm
        · have free := (range_of_makes actions _ again (makes_iterator number front)).1
          omega
      have stands : (session.perform routines bound action).2.iterator number = front :=
        iterator_made first
      have there : number < (session.perform routines bound action).2.iterators.size := by omega
      rw [if_pos here]
      refine ⟨Nat.lt_of_lt_of_le there (size_performAll _ _ actions _), ?_⟩
      exact tracks.performAll contained there [] (stands ▸ holds) rfl
    · have new : (session.perform routines bound action).2.iterators.size ≤ number := by
        by_contra there
        rcases exists_of_lt_size (Nat.lt_of_not_le there) with before | ⟨made, response⟩
        · omega
        · exact here (response ▸ makes_iterator number made)
      have made := (List.mem_cons.mp made).resolve_left fun first =>
        here (first ▸ makes_iterator number front)
      rw [if_neg here]
      exact later contained new holds made

end Tracking

end Session

end Relational
