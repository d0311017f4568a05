import Relational.Proofs.Goal.Search
import Relational.Proofs.Stream.Observation
import Relational.Stream.Consumers

/-!
# Consumers do not see each other

A session follows its streams without sharing: every action that makes a stream makes the one that
is read, and every pull comes to what is read at the front of its iterator, whatever was forced
before. So an iterator draws what it would draw in a session where the same streams are made and
nobody else pulls or forces anything.
-/
namespace Relational

variable {α ε ρ : Type}

/-- What streams are there after an action, where these were there before it. -/
def Action.read (reading : Reading α ε ρ) (streams : List (Unshared α ε ρ)) :
    Action α ε ρ → Option (List (Unshared α ε ρ))
  | make plan => (plan.read reading streams).map fun made => streams ++ [made]
  | force number =>
    ((streams.getD number .empty).step reading).map fun made => streams ++ [made]
  | drop number => some (streams.set number .empty)
  | iterate _ | pull _ => some streams

/-- What streams are there after some actions, where these were there before them. -/
def Action.readAll (reading : Reading α ε ρ) :
    List (Action α ε ρ) → List (Unshared α ε ρ) → Option (List (Unshared α ε ρ))
  | [], streams => some streams
  | action :: actions, streams => do
    let after ← action.read reading streams
    readAll reading actions after

/-- An action that makes no stream leaves the streams as they are. -/
theorem Action.read_of_not_makes {action : Action α ε ρ} (looks : action.makes = false)
    (reading : Reading α ε ρ) (streams : List (Unshared α ε ρ)) :
    action.read reading streams = some streams := by
  cases action with
  | iterate | pull => rfl
  | make | force | drop => exact nomatch looks

/-- Only the actions that make streams matter for what streams are there. -/
theorem Action.readAll_filter (reading : Reading α ε ρ) (actions : List (Action α ε ρ))
    (streams : List (Unshared α ε ρ)) :
    readAll reading (actions.filter Action.makes) streams = readAll reading actions streams := by
  induction actions generalizing streams with
  | nil => rfl
  | cons action actions same =>
    cases makes : action.makes with
    | true =>
      rw [List.filter_cons_of_pos makes]
      exact bind_congr fun after => same after
    | false =>
      rw [List.filter_cons_of_neg (by rw [makes]; exact Bool.false_ne_true), same]
      show _ = (action.read reading streams).bind (readAll reading actions)
      rw [read_of_not_makes makes, Option.bind_some]

namespace Session

variable {routines : ρ → Plan α ε ρ} {session after : Session α ε ρ}
  {recipe : CellId → Recipe α ε ρ} {bound : Nat}

section Responses

variable {response : Response α} {responses responses' : List (Response α)}
  {action : Action α ε ρ} {actions actions' : List (Action α ε ρ)}

/-- Where no action is given up the first one is not, and none of the others. -/
theorem calm_cons :
    Calm (response :: responses) ↔ response.isStopped = false ∧ Calm responses :=
  List.forall_mem_cons

/-- What is drawn by an action and by those after it. -/
theorem drawn_cons (iterator : Nat) :
    drawn iterator (action :: actions) (response :: responses) =
      drawn iterator [action] [response] ++ drawn iterator actions responses := by
  simp only [drawn, List.zip_cons_cons, List.zip_nil_right, List.filterMap_cons,
    List.filterMap_nil]
  split <;> rfl

/-- What an action comes to, and what those after it come to. -/
theorem performAll_cons (session : Session α ε ρ) :
    performAll routines bound (action :: actions) session =
      ((session.perform routines bound action).1 ::
          (performAll routines bound actions (session.perform routines bound action).2).1,
        (performAll routines bound actions (session.perform routines bound action).2).2) :=
  rfl

/-- What a single action comes to. -/
theorem performAll_singleton (session : Session α ε ρ) :
    performAll routines bound [action] session =
      ([(session.perform routines bound action).1], (session.perform routines bound action).2) :=
  rfl

end Responses

/-- All streams of a session, and all that its iterators stand at, are of a kind. -/
structure All (kind : Stream α → Prop) (session : Session α ε ρ) : Prop where
  /-- The streams are. -/
  streams : ∀ stream ∈ session.streams, kind stream
  /-- What the iterators stand at is. -/
  iterators : ∀ iterator ∈ session.iterators, kind iterator.pending

/-- All streams of the session without streams are of any kind. -/
theorem all_empty (kind : Stream α → Prop) : (empty : Session α ε ρ).All kind :=
  ⟨fun _ member => (nomatch member), fun _ member => nomatch member⟩

section Everything

variable {kind : Stream α → Prop} {made : Stream α} (all : session.All kind)

include all

/-- A stream is of the kind of all streams, where there is none because the empty stream is. -/
theorem All.stream (nothing : kind .empty) (number : Nat) : kind (session.stream number) := by
  unfold Session.stream
  rw [Array.getD_eq_getD_getElem?]
  cases found : session.streams[number]? with
  | none => exact nothing
  | some stream => exact all.streams stream (Array.mem_of_getElem? found)

/-- What an iterator stands at is of the kind of all streams. -/
theorem All.iterator (nothing : kind .empty) (number : Nat) :
    kind (session.iterator number).pending := by
  unfold Session.iterator
  rw [Array.getD_eq_getD_getElem?]
  cases found : session.iterators[number]? with
  | none => exact nothing
  | some iterator => exact all.iterators iterator (Array.mem_of_getElem? found)

/-- All streams of a kind are of every kind that it belongs to, whatever the heap is. -/
theorem All.imp {kind' : Stream α → Prop} (imp : ∀ {stream}, kind stream → kind' stream)
    (heap : Heap α ε ρ) : All kind' { session with heap } :=
  ⟨fun stream member => imp (all.streams stream member),
    fun iterator member => imp (all.iterators iterator member)⟩

/-- Another stream of the kind is made. -/
theorem All.make (is : kind made) :
    All kind { session with streams := session.streams.push made } := by
  refine ⟨fun other member => ?_, all.iterators⟩
  rcases Array.mem_push.mp member with old | rfl
  · exact all.streams other old
  · exact is

/-- The place of a stream is emptied. -/
theorem All.drop (nothing : kind .empty) (number : Nat) :
    All kind { session with streams := session.streams.setIfInBounds number .empty } := by
  refine ⟨fun other member => ?_, all.iterators⟩
  rcases Array.mem_or_eq_of_mem_setIfInBounds member with old | rfl
  · exact all.streams other old
  · exact nothing

/-- An iterator is made at a stream of the kind. -/
theorem All.iterate (is : kind made) :
    All kind { session with iterators := session.iterators.push ⟨made⟩ } := by
  refine ⟨all.streams, fun other member => ?_⟩
  rcases Array.mem_push.mp member with old | rfl
  · exact all.iterators other old
  · exact is

/-- An iterator is moved to a stream of the kind. -/
theorem All.move (is : kind made) (number : Nat) :
    All kind { session with iterators := session.iterators.setIfInBounds number ⟨made⟩ } := by
  refine ⟨all.streams, fun other member => ?_⟩
  rcases Array.mem_or_eq_of_mem_setIfInBounds member with old | rfl
  · exact all.iterators other old
  · exact is

end Everything

/-- The streams of a session, with a recipe in place of each cell. -/
def places (session : Session α ε ρ) (recipe : CellId → Recipe α ε ρ) : List (Unshared α ε ρ) :=
  session.streams.toList.map (Stream.unshared recipe)

/-- The position of an iterator, with a recipe in place of each cell. -/
def front (session : Session α ε ρ) (recipe : CellId → Recipe α ε ρ) (iterator : Nat) :
    Unshared α ε ρ :=
  (session.iterator iterator).pending.unshared recipe

/-- The streams of a session in a scope are found there by their numbers. -/
theorem getD_streams (session : Session α ε ρ) (number : Nat) :
    session.streams.toList.getD number .empty = session.stream number := by
  rw [stream, List.getD_eq_getElem?_getD, Array.getD_eq_getD_getElem?, Array.getElem?_toList]

/-- The place of a stream holds the stream. -/
theorem getD_places (session : Session α ε ρ) (recipe : CellId → Recipe α ε ρ) (number : Nat) :
    (session.places recipe).getD number .empty = (session.stream number).unshared recipe := by
  have nothing : (Unshared.empty : Unshared α ε ρ) = Stream.unshared recipe .empty := rfl
  rw [places, nothing, List.getD_map, getD_streams]

/-- The heap of a session realizes recipes, and streams and iterators refer to its cells. -/
structure Follows (routines : ρ → Plan α ε ρ) (session : Session α ε ρ)
    (recipe : CellId → Recipe α ε ρ) : Prop where
  /-- The heap does. -/
  realizes : Heap.Realizes (.full routines .empty) .empty session.heap recipe
  /-- Nothing is known of what is under way. -/
  undisturbed : session.heap.Undisturbed routines .empty recipe
  /-- All streams refer to cells that are there. -/
  within : session.All fun stream => stream.Within session.heap.cells.size

/-- A session without streams follows anything. -/
theorem Follows.empty (routines : ρ → Plan α ε ρ) :
    (empty : Session α ε ρ).Follows routines .cell where
  realizes := Heap.closed_empty.realizes_full
  undisturbed := Heap.undisturbed routines .empty
  within := all_empty _

/-- How a session follows its streams through some actions. -/
structure Passes (routines : ρ → Plan α ε ρ) (before : Session α ε ρ)
    (recipe : CellId → Recipe α ε ρ) (actions : List (Action α ε ρ))
    (responses : List (Response α)) (after : Session α ε ρ)
    (recipe' : CellId → Recipe α ε ρ) : Prop where
  /-- It follows them still. -/
  follows : after.Follows routines recipe'
  /-- The heap has grown. -/
  grows : before.heap.Grows recipe after.heap recipe'
  /-- The streams that were made are those that are read. -/
  places : Action.readAll (.full routines .empty) actions (before.places recipe) =
    some (after.places recipe')
  /-- No iterator has gone. -/
  iterators : before.iterators.size ≤ after.iterators.size
  /-- Each iterator has drawn what is read at its front. -/
  draws : ∀ iterator < before.iterators.size,
    (before.front recipe iterator).Draws (.full routines .empty)
      (drawn iterator actions responses) (after.front recipe' iterator)

/-- Without actions a session passes to itself. -/
theorem Passes.refl (follows : session.Follows routines recipe) :
    session.Passes routines recipe [] [] session recipe where
  follows := follows
  grows := .refl _ _
  places := rfl
  iterators := Nat.le_refl _
  draws _ _ := .nothing _

/-- A session passes through an action and then through the others. -/
theorem Passes.cons {before middle : Session α ε ρ} {recipe' recipe'' : CellId → Recipe α ε ρ}
    {action : Action α ε ρ} {response : Response α} {actions : List (Action α ε ρ)}
    {responses : List (Response α)}
    (first : before.Passes routines recipe [action] [response] middle recipe')
    (others : middle.Passes routines recipe' actions responses after recipe'') :
    before.Passes routines recipe (action :: actions) (response :: responses) after recipe'' where
  follows := others.follows
  grows := first.grows.trans others.grows
  places := by
    obtain ⟨streams, read, same⟩ := Option.bind_eq_some_iff.mp first.places
    cases same
    exact Option.bind_eq_some_iff.mpr ⟨_, read, others.places⟩
  iterators := Nat.le_trans first.iterators others.iterators
  draws iterator there := by
    rw [drawn_cons]
    exact (first.draws iterator there).append
      (others.draws iterator (Nat.lt_of_lt_of_le there first.iterators))

section Following

variable (follows : session.Follows routines recipe)

include follows

section Growing

variable {heap : Heap α ε ρ} {recipe' : CellId → Recipe α ε ρ}
  (grows : session.heap.Grows recipe heap recipe')

include grows

/-- What a session follows it follows where its heap has grown. -/
theorem Follows.grow (realizes : Heap.Realizes (.full routines .empty) .empty heap recipe') :
    Follows routines { session with heap } recipe' where
  realizes := realizes
  undisturbed := follows.undisturbed.grows grows
  within := follows.within.imp (fun within => within.mono grows.size) heap

/-- Streams stay in their places where the heap has grown. -/
theorem Follows.places_grow : session.places recipe' = session.places recipe :=
  unshared_scope_eq grows.keep fun stream member =>
    follows.within.streams stream (Array.mem_toList_iff.mp member)

/-- Iterators stand where they stood where the heap has grown. -/
theorem Follows.front_grow (iterator : Nat) :
    session.front recipe' iterator = session.front recipe iterator :=
  (follows.within.iterator trivial iterator).unshared_eq grows.keep

end Growing

end Following

/-- What is there after a stream is made. -/
theorem Follows.passes_keep (follows : session.Follows routines recipe) {action : Action α ε ρ}
    {run : Handlers α ε ρ → Run α ε ρ (Stream α)} {value : Reading α ε ρ → Option (Unshared α ε ρ)}
    (performs : session.perform routines bound action =
      session.keep (run (handlers routines bound)))
    (reads : ∀ reading, action.read reading (session.places recipe) =
      (value reading).map fun made => session.places recipe ++ [made])
    (implemented : ∀ depth, (Comparison.upTo routines .empty depth).Implements session.heap recipe
      run value Comparison.ofStream) {response : Response α}
    (performed : session.perform routines bound action = (response, after))
    (calm : response.isStopped = false) :
    ∃ recipe', session.Passes routines recipe [action] [response] after recipe' := by
  rw [performs, keep] at performed
  cases ran : run (handlers routines bound) session.heap with
  | error stop heap =>
    simp only [ran, Prod.mk.injEq] at performed
    rw [← performed.1] at calm
    exact nomatch calm
  | ok made heap =>
    simp only [ran, Prod.mk.injEq] at performed
    obtain ⟨rfl, rfl⟩ := performed
    obtain ⟨recipe', _, read, grows, realizes, within, rfl⟩ := sound_of_implements implemented ran
    have grown := follows.grow grows realizes
    refine ⟨recipe', ⟨⟨realizes, grown.undisturbed, grown.within.make within⟩, grows, ?_,
      Nat.le_refl _, fun iterator _ => ?_⟩⟩
    · have placed : places ⟨session.streams.push made, session.iterators, heap⟩ recipe' =
          session.places recipe ++ [made.unshared recipe'] := by
        rw [← follows.places_grow grows]
        simp only [places, Array.toList_push, List.map_append, List.map_cons, List.map_nil]
      rw [placed]
      refine Option.bind_eq_some_iff.mpr ⟨_, ?_, rfl⟩
      rw [reads, read, Option.map_some]
    · have silent : drawn iterator [action] [Response.stream session.streams.size made] = [] := by
        cases action <;> rfl
      rw [silent]
      have stays := follows.front_grow grows iterator
      exact stays ▸ .nothing _

/-- What is left of a stream when the next value has been looked for. -/
def leftover {stream : Type} (nothing : stream) (found : Option (α × stream)) : stream :=
  (found.map Prod.snd).getD nothing

/-- What a pull comes to where the next value was looked for. -/
def pulled (session : Session α ε ρ) (number : Nat) (found : Option (α × Stream α))
    (heap : Heap α ε ρ) : Response α × Session α ε ρ :=
  let rest : Stream.Iterator α := ⟨leftover .empty found⟩
  (.pulled (found.map Prod.fst) rest,
    ⟨session.streams, session.iterators.setIfInBounds number rest, heap⟩)

section Pulling

variable {number : Nat}

/-- A pull comes to what is found. -/
theorem perform_pull {found : Option (α × Stream α)} {heap : Heap α ε ρ}
    (ran : (session.iterator number).pending.uncons? (handlers routines bound) bound session.heap =
      .ok found heap) :
    session.perform routines bound (.pull number) = session.pulled number found heap := by
  unfold perform performWith Stream.Iterator.next
  unfold Session.iterator at ran
  cases found <;> simp only [ran] <;> rfl

/-- A pull is given up where looking for the next value is. -/
theorem perform_pull_error {stop : Stop} {heap : Heap α ε ρ}
    (ran : (session.iterator number).pending.uncons? (handlers routines bound) bound session.heap =
      .error stop heap) : (session.perform routines bound (.pull number)).1 = .stopped stop := by
  unfold perform performWith Stream.Iterator.next
  unfold Session.iterator at ran
  simp only [ran]

/-- A pull puts the iterator that is left in place of the one before. -/
theorem front_pulled (found : Option (α × Stream α)) (heap : Heap α ε ρ)
    (there : number < session.iterators.size) (recipe : CellId → Recipe α ε ρ) :
    (session.pulled number found heap).2.front recipe number =
      (leftover Stream.empty found).unshared recipe := by
  simp only [pulled, front, Session.iterator, Array.getD_eq_getD_getElem?,
    Array.getElem?_setIfInBounds_self_of_lt there, Option.getD_some]

/-- A pull moves no other iterator. -/
theorem front_pulled_of_ne (found : Option (α × Stream α)) (heap : Heap α ε ρ) {other : Nat}
    (apart : number ≠ other) (recipe : CellId → Recipe α ε ρ) :
    (session.pulled number found heap).2.front recipe other = session.front recipe other := by
  simp only [pulled, front, Session.iterator, Array.getD_eq_getD_getElem?,
    Array.getElem?_setIfInBounds_ne apart]

/-- What is found belongs to what is seen, and so do the streams after it. -/
theorem leftover_of_agrees {heap : Heap α ε ρ} {found : Option (α × Stream α)}
    {seen : Option (α × Unshared α ε ρ)} (agrees : Comparison.ofPulled heap recipe found seen) :
    found.map Prod.fst = seen.map Prod.fst ∧ (leftover Stream.empty found).Within heap.cells.size ∧
      (leftover Stream.empty found).unshared recipe = leftover .empty seen := by
  cases agrees with
  | none => exact ⟨rfl, trivial, rfl⟩
  | some agrees => exact ⟨congrArg some agrees.1.symm, agrees.2.1, agrees.2.2.symm⟩

/-- What is seen when the next value is looked for is drawn. -/
theorem draws_of_uncons? {reading : Reading α ε ρ} {stream : Unshared α ε ρ}
    {seen : Option (α × Unshared α ε ρ)} (read : stream.uncons? reading bound = some seen) :
    stream.Draws reading [seen.map Prod.fst] (leftover .empty seen) := by
  cases seen with
  | none => exact .finish read (.nothing _)
  | some found => exact .value read (.nothing _)

/-- What a pull comes to is read at the front of the iterator. -/
theorem Follows.passes_pulled (follows : session.Follows routines recipe)
    {found : Option (α × Stream α)} {heap : Heap α ε ρ}
    (ran : (session.iterator number).pending.uncons? (handlers routines bound) bound session.heap =
      .ok found heap) :
    ∃ recipe' seen,
      (session.front recipe number).uncons? (.full routines .empty) bound = some seen ∧
      found.map Prod.fst = seen.map Prod.fst ∧
      (leftover Stream.empty found).unshared recipe' = leftover .empty seen ∧
      session.Passes routines recipe [.pull number] [(session.pulled number found heap).1]
        (session.pulled number found heap).2 recipe' := by
  have implemented := fun depth => (@Comparison.executes_upTo _ _ _ routines .empty depth).uncons?
    follows.realizes bound (follows.within.iterator trivial number)
  obtain ⟨recipe', seen, read, grows, realizes, agrees⟩ := sound_of_implements implemented ran
  obtain ⟨same, within, rest⟩ := leftover_of_agrees agrees
  have grown := follows.grow grows realizes
  refine ⟨recipe', seen, read, same, rest,
    ⟨⟨realizes, grown.undisturbed, grown.within.move within number⟩, grows, ?_, ?_, ?_⟩⟩
  · exact congrArg some (follows.places_grow grows).symm
  · exact Nat.le_of_eq Array.size_setIfInBounds.symm
  · intro iterator there
    simp only [drawn, pulled, List.zip_cons_cons, List.zip_nil_right, List.filterMap_cons,
      List.filterMap_nil]
    by_cases here : number = iterator
    · subst here
      rw [if_pos rfl, same]
      have moved := (front_pulled found heap there recipe').trans rest
      exact moved ▸ draws_of_uncons? read
    · rw [if_neg here]
      have stays := (front_pulled_of_ne found heap here recipe').trans
        (follows.front_grow grows iterator)
      exact stays ▸ .nothing _

end Pulling

/-- An action that is not given up does what is read. -/
theorem Follows.passes (follows : session.Follows routines recipe) {action : Action α ε ρ}
    {response : Response α} (performed : session.perform routines bound action = (response, after))
    (calm : response.isStopped = false) :
    ∃ recipe', session.Passes routines recipe [action] [response] after recipe' := by
  cases action with
  | make plan =>
    have implemented := fun depth => (@Comparison.executes_upTo _ _ _ routines .empty depth).plan
      follows.realizes plan fun stream member =>
        follows.within.streams stream (Array.mem_toList_iff.mp member)
    exact follows.passes_keep rfl (fun _ => rfl) implemented performed calm
  | force number =>
    have implemented := fun depth => (@Comparison.executes_upTo _ _ _ routines .empty depth).step
      follows.realizes (follows.within.stream trivial number)
    refine follows.passes_keep rfl (fun reading => ?_) implemented performed calm
    rw [Action.read, getD_places]
  | drop number =>
    cases performed
    refine ⟨recipe, ⟨⟨follows.realizes, follows.undisturbed, follows.within.drop trivial number⟩,
      .refl _ _, ?_, Nat.le_refl _, fun _ _ => .nothing _⟩⟩
    simp only [Action.readAll, Action.read, places, Array.toList_setIfInBounds, List.map_set,
      Stream.unshared, Option.bind_eq_bind, Option.bind_some]
  | iterate number =>
    cases performed
    have there := follows.within.stream trivial number
    refine ⟨recipe, ⟨⟨follows.realizes, follows.undisturbed, follows.within.iterate there⟩,
      .refl _ _, rfl, ?_, fun iterator there => ?_⟩⟩
    · rw [Array.size_push]
      exact Nat.le_succ _
    · have stays : front ⟨session.streams, session.iterators.push ⟨session.stream number⟩,
          session.heap⟩ recipe iterator = session.front recipe iterator := by
        simp only [front, Session.iterator, Array.getD_eq_getD_getElem?,
          Array.getElem?_push_lt there, Array.getElem?_eq_getElem there]
      rw [stays]
      exact .nothing _
  | pull number =>
    cases ran : (session.iterator number).pending.uncons? (handlers routines bound) bound
        session.heap with
    | error stop heap =>
      have stopped := perform_pull_error ran
      rw [performed] at stopped
      have stopped : response = .stopped stop := stopped
      subst stopped
      exact absurd calm Bool.noConfusion
    | ok found heap =>
      obtain ⟨recipe', _, _, _, _, passes⟩ := follows.passes_pulled ran
      rw [perform_pull ran] at performed
      rw [performed] at passes
      exact ⟨recipe', passes⟩

/-- Where no action is given up, the actions do what is read. -/
theorem Follows.passes_all (follows : session.Follows routines recipe)
    {actions : List (Action α ε ρ)} {responses : List (Response α)}
    (performed : session.performAll routines bound actions = (responses, after))
    (calm : Calm responses) :
    ∃ recipe', session.Passes routines recipe actions responses after recipe' := by
  induction actions generalizing session recipe responses with
  | nil =>
    cases performed
    exact ⟨recipe, .refl follows⟩
  | cons action actions others =>
    rw [performAll_cons] at performed
    obtain ⟨rfl, same⟩ := Prod.mk.inj performed
    obtain ⟨first, calm⟩ := calm_cons.mp calm
    obtain ⟨recipe', passes⟩ := follows.passes rfl first
    obtain ⟨recipe'', rest⟩ := others passes.follows (Prod.ext rfl same) calm
    exact ⟨recipe'', passes.cons rest⟩

/-- Under every bound that is large enough the actions come to these responses and this session. -/
def Settles (routines : ρ → Plan α ε ρ) (before : Session α ε ρ) (actions : List (Action α ε ρ))
    (responses : List (Response α)) (after : Session α ε ρ) : Prop :=
  ∃ enough, ∀ bound, enough ≤ bound →
    before.performAll routines bound actions = (responses, after)

/-- Without actions nothing changes. -/
theorem Settles.refl (session : Session α ε ρ) : session.Settles routines [] [] session :=
  ⟨0, fun _ _ => rfl⟩

/-- Actions settle one after another. -/
theorem Settles.cons {before middle : Session α ε ρ} {action : Action α ε ρ}
    {response : Response α} {actions : List (Action α ε ρ)} {responses : List (Response α)}
    (first : before.Settles routines [action] [response] middle)
    (others : middle.Settles routines actions responses after) :
    before.Settles routines (action :: actions) (response :: responses) after := by
  obtain ⟨low, first⟩ := first
  obtain ⟨high, others⟩ := others
  refine ⟨max low high, fun bound le => ?_⟩
  have single := first bound (by omega)
  rw [performAll_singleton, Prod.mk.injEq, List.cons.injEq, and_iff_left rfl] at single
  rw [performAll_cons, single.1, single.2, others bound (by omega)]

/-- An action that settles without being given up does what is read. -/
theorem Settles.passes {action : Action α ε ρ} {response : Response α}
    (settles : session.Settles routines [action] [response] after)
    (follows : session.Follows routines recipe) (calm : response.isStopped = false) :
    ∃ recipe', session.Passes routines recipe [action] [response] after recipe' := by
  obtain ⟨enough, settled⟩ := settles
  have calm : Calm [response] := calm_cons.mpr ⟨calm, fun _ member => nomatch member⟩
  exact follows.passes_all (settled enough (Nat.le_refl _)) calm

/-- A stream that can be read is made. -/
theorem Follows.settles_keep (follows : session.Follows routines recipe) {action : Action α ε ρ}
    {run : Handlers α ε ρ → Run α ε ρ (Stream α)} {value : Reading α ε ρ → Option (Unshared α ε ρ)}
    (performs : ∀ bound, session.perform routines bound action =
      session.keep (run (handlers routines bound)))
    (steady : Handlers.Steady run) (gradual : Reading.Gradual value)
    (implemented : ∀ depth, (Comparison.upTo routines .empty depth).Implements session.heap recipe
      run value Comparison.ofStream) {made : Unshared α ε ρ}
    (read : value (.full routines .empty) = some made) :
    ∃ response after, session.Settles routines [action] [response] after ∧
      response.isStopped = false ∧ after.iterators = session.iterators := by
  obtain ⟨enough, stream, heap, ran⟩ :=
    complete_of_implements implemented follows.undisturbed gradual read
  refine ⟨.stream session.streams.size stream,
    ⟨session.streams.push stream, session.iterators, heap⟩, ⟨enough, fun bound le => ?_⟩, rfl, rfl⟩
  have same := (steady.refines (handlers_mono routines le)).ok ran
  simp only [performAll_singleton, performs, keep, same]

/-- An action whose streams can be read makes them. -/
theorem Follows.settles (follows : session.Follows routines recipe) {action : Action α ε ρ}
    (makes : action.makes = true) {streams : List (Unshared α ε ρ)}
    (read : action.read (.full routines .empty) (session.places recipe) = some streams) :
    ∃ response after, session.Settles routines [action] [response] after ∧
      response.isStopped = false ∧ after.iterators = session.iterators := by
  cases action with
  | make plan =>
    obtain ⟨made, read, _⟩ := Option.map_eq_some_iff.mp read
    have implemented := fun depth => (@Comparison.executes_upTo _ _ _ routines .empty depth).plan
      follows.realizes plan fun stream member =>
        follows.within.streams stream (Array.mem_toList_iff.mp member)
    exact follows.settles_keep (fun _ => rfl) (.plan plan _) (.plan plan _) implemented read
  | force number =>
    rw [Action.read, getD_places] at read
    obtain ⟨made, read, _⟩ := Option.map_eq_some_iff.mp read
    have implemented := fun depth => (@Comparison.executes_upTo _ _ _ routines .empty depth).step
      follows.realizes (follows.within.stream trivial number)
    exact follows.settles_keep (fun _ => rfl) (.step _) (.step _) implemented read
  | drop number => exact ⟨_, _, ⟨0, fun _ _ => rfl⟩, rfl, rfl⟩
  | iterate | pull => exact nomatch makes

/-- Where the streams that some actions make can be read, the actions make them. -/
theorem Follows.settles_all (follows : session.Follows routines recipe)
    {actions : List (Action α ε ρ)} (makes : ∀ action ∈ actions, action.makes = true)
    {streams : List (Unshared α ε ρ)}
    (read : Action.readAll (.full routines .empty) actions (session.places recipe) =
      some streams) :
    ∃ responses after recipe', session.Settles routines actions responses after ∧ Calm responses ∧
      after.Follows routines recipe' ∧ after.places recipe' = streams ∧
        after.iterators = session.iterators := by
  induction actions generalizing session recipe with
  | nil =>
    exact ⟨[], session, recipe, .refl session, fun _ member => (nomatch member), follows,
      Option.some.inj read, rfl⟩
  | cons action actions others =>
    obtain ⟨between, first, read⟩ := Option.bind_eq_some_iff.mp read
    have made := makes action List.mem_cons_self
    obtain ⟨response, middle, settles, calm, same⟩ := follows.settles made first
    obtain ⟨recipe', passes⟩ := settles.passes follows calm
    obtain ⟨_, first', placed⟩ := Option.bind_eq_some_iff.mp passes.places
    rw [first, Option.some.injEq] at first'
    subst first'
    rw [Option.some.inj placed] at read
    obtain ⟨responses, after, recipe'', rest, calm', follows', places, iterators⟩ :=
      others passes.follows (fun action member => makes action (List.mem_cons_of_mem _ member)) read
    exact ⟨response :: responses, after, recipe'', settles.cons rest, calm_cons.mpr ⟨calm, calm'⟩,
      follows', places, iterators.trans same⟩

section Drawing

variable {number : Nat}

/-- A pull finds what can be seen at the front of the iterator and leaves what is left of it. -/
theorem Follows.settles_pull (follows : session.Follows routines recipe)
    (there : number < session.iterators.size) {depth : Nat}
    {seen : Option (α × Unshared α ε ρ)}
    (read : (session.front recipe number).uncons? (.full routines .empty) depth = some seen) :
    ∃ response after recipe', session.Settles routines [.pull number] [response] after ∧
      response.isStopped = false ∧
      drawn number [(.pull number : Action α ε ρ)] [response] = [seen.map Prod.fst] ∧
      after.Follows routines recipe' ∧ number < after.iterators.size ∧
      after.front recipe' number = leftover .empty seen := by
  have implemented := fun depth' =>
    (@Comparison.executes_upTo _ _ _ routines .empty depth').uncons? follows.realizes depth
      (follows.within.iterator trivial number)
  obtain ⟨low, found, heap, ran⟩ := complete_of_implements implemented follows.undisturbed
    (Comparison.uncons_gradual depth _) read
  have again : ∀ bound, max low depth ≤ bound →
      (session.iterator number).pending.uncons? (handlers routines bound) bound session.heap =
        .ok found heap := by
    intro bound le
    have more : (handlers routines low).Refines (handlers routines bound) :=
      handlers_mono routines (by omega)
    exact Stream.uncons?_mono (by omega) (((Handlers.Steady.uncons? depth _).refines more).ok ran)
  obtain ⟨recipe', seen', read', same, left, passes⟩ :=
    follows.passes_pulled (again _ (Nat.le_refl _))
  rw [Unshared.uncons?_mono (Nat.le_max_right low depth) read, Option.some.injEq] at read'
  subst read'
  refine ⟨(session.pulled number found heap).1, (session.pulled number found heap).2, recipe',
    ⟨max low depth, fun bound le => ?_⟩, rfl, ?_, passes.follows,
    Nat.lt_of_lt_of_le there passes.iterators, (front_pulled found heap there recipe').trans left⟩
  · rw [performAll_singleton, perform_pull (again bound le)]
  · simp only [drawn, pulled, List.zip_cons_cons, List.zip_nil_right, List.filterMap_cons,
      List.filterMap_nil, if_true, same]

/-- Pulls come to the values that can be drawn at the front of the iterator. -/
theorem Follows.settles_pulls (follows : session.Follows routines recipe)
    (there : number < session.iterators.size) {values : List (Option α)} {last : Unshared α ε ρ}
    (draws : (session.front recipe number).Draws (.full routines .empty) values last) :
    ∃ responses after, session.Settles routines (List.replicate values.length (.pull number))
      responses after ∧ Calm responses ∧
        drawn number (List.replicate values.length (.pull number : Action α ε ρ)) responses =
          values := by
  generalize standing : session.front recipe number = position at draws
  induction draws generalizing session recipe with
  | nothing => exact ⟨[], session, .refl session, fun _ member => (nomatch member), rfl⟩
  | value read _ later | finish read _ later =>
    rw [← standing] at read
    obtain ⟨response, middle, recipe', settles, calm, first, follows', there', left⟩ :=
      follows.settles_pull there read
    obtain ⟨responses, after, rest, calm', others⟩ := later follows' there' left
    refine ⟨response :: responses, after, settles.cons rest, calm_cons.mpr ⟨calm, calm'⟩, ?_⟩
    rw [List.length_cons, List.replicate_succ, drawn_cons, first, others]
    rfl

end Drawing

section Iterating

/-- A session with one more iterator, at the front of a stream. -/
def iterated (session : Session α ε ρ) (number : Nat) : Session α ε ρ :=
  { session with iterators := session.iterators.push ⟨session.stream number⟩ }

/-- The new iterator is there. -/
theorem lt_size_iterated (session : Session α ε ρ) (number : Nat) :
    session.iterators.size < (session.iterated number).iterators.size := by
  rw [iterated, Array.size_push]
  exact Nat.lt_succ_self _

/-- The new iterator stands at the front of its stream. -/
theorem front_iterated (session : Session α ε ρ) (number : Nat) (recipe : CellId → Recipe α ε ρ) :
    (session.iterated number).front recipe session.iterators.size =
      (session.stream number).unshared recipe := by
  simp only [iterated, front, iterator, Array.getD_eq_getD_getElem?, Array.getElem?_push_size,
    Option.getD_some]

/-- The streams that a session follows it follows with one more iterator. -/
theorem Follows.iterated (follows : session.Follows routines recipe) (number : Nat) :
    (session.iterated number).Follows routines recipe where
  realizes := follows.realizes
  undisturbed := follows.undisturbed
  within := follows.within.iterate (follows.within.stream trivial number)

/-- A new iterator draws from its stream without sharing, whatever others do. -/
theorem Follows.draws (follows : session.Follows routines recipe) {number : Nat}
    {actions : List (Action α ε ρ)} {responses : List (Response α)}
    (performed : session.performAll routines bound (.iterate number :: actions) =
      (responses, after)) (calm : Calm responses) :
    ∃ last, ((session.stream number).unshared recipe).Draws (.full routines .empty)
      (drawn session.iterators.size (.iterate number :: actions) responses) last := by
  rw [performAll_cons] at performed
  obtain ⟨rfl, same⟩ := Prod.mk.inj performed
  have others : (session.iterated number).performAll routines bound actions = (_, after) :=
    Prod.ext rfl same
  obtain ⟨recipe', passes⟩ :=
    (follows.iterated number).passes_all others (calm_cons.mp calm).2
  have draws := passes.draws session.iterators.size (session.lt_size_iterated number)
  rw [front_iterated] at draws
  refine ⟨after.front recipe' session.iterators.size, ?_⟩
  rw [drawn_cons]
  exact draws

/-- A new iterator that is the only one to be pulled comes to the values that can be drawn from its
stream without sharing. -/
theorem Follows.settles_alone (follows : session.Follows routines recipe) {number : Nat}
    {values : List (Option α)} {last : Unshared α ε ρ}
    (draws : ((session.stream number).unshared recipe).Draws (.full routines .empty) values last) :
    let pulls := .iterate number :: List.replicate values.length (.pull session.iterators.size)
    ∃ responses after, session.Settles routines pulls responses after ∧ Calm responses ∧
      drawn session.iterators.size pulls responses = values := by
  rw [← front_iterated] at draws
  obtain ⟨responses, after, settles, calm, drew⟩ :=
    (follows.iterated number).settles_pulls (session.lt_size_iterated number) draws
  have started : session.Settles routines [.iterate number]
      [.iterator session.iterators.size ⟨session.stream number⟩] (session.iterated number) :=
    ⟨0, fun _ _ => rfl⟩
  refine ⟨_, after, started.cons settles, calm_cons.mpr ⟨rfl, calm⟩, ?_⟩
  rw [drawn_cons]
  exact drew

end Iterating

/-- Sharing is invisible in what consumers draw. Streams are built, whatever is pulled and forced
meanwhile; consumers go on in any order; and then an iterator is made at the front of a stream that
was built, or of a clone of it, and all consumers go on in any order. If no action is given up, the
values that the iterator comes to are those that it comes to under every bound that is large enough
where the same streams are built and it is the only one to pull anything. -/
theorem consumers_draw_alone (routines : ρ → Plan α ε ρ) (bound : Nat)
    (building between after : List (Action α ε ρ)) (number copy : Nat)
    {built busy shared : List (Response α) × Session α ε ρ}
    (builds : performAll routines bound building empty = built)
    (goes : performAll routines bound between built.2 = busy)
    (shares : performAll routines bound (.iterate copy :: after) busy.2 = shared)
    (calm : Calm built.1 ∧ Calm busy.1 ∧ Calm shared.1)
    (clone : busy.2.stream copy = built.2.stream number) :
    ∃ enough, ∀ more, enough ≤ more →
      let values := drawn busy.2.iterators.size (.iterate copy :: after) shared.1
      let pulls := .iterate number :: List.replicate values.length (.pull 0)
      let alone := performAll routines more (building.filter Action.makes) empty
      let sole := performAll routines more pulls alone.2
      Calm alone.1 ∧ Calm sole.1 ∧ drawn 0 pulls sole.1 = values := by
  obtain ⟨calmBuilt, calmBusy, calmShared⟩ := calm
  obtain ⟨recipe, building'⟩ := (Follows.empty routines).passes_all builds calmBuilt
  obtain ⟨recipe', between'⟩ := building'.follows.passes_all goes calmBusy
  obtain ⟨last, draws⟩ := between'.follows.draws shares calmShared
  have places := building'.places
  rw [← Action.readAll_filter] at places
  obtain ⟨responses, alone, recipe'', settles, calmAlone, follows, same, none⟩ :=
    (Follows.empty routines).settles_all (fun action member => (List.mem_filter.mp member).2) places
  have stream : (alone.stream number).unshared recipe'' =
      (busy.2.stream copy).unshared recipe' := by
    calc (alone.stream number).unshared recipe''
      _ = (built.2.stream number).unshared recipe := by
        rw [← getD_places, same, getD_places]
      _ = (built.2.stream number).unshared recipe' :=
        ((building'.follows.within.stream trivial number).unshared_eq between'.grows.keep).symm
      _ = (busy.2.stream copy).unshared recipe' := by rw [clone]
  rw [← stream] at draws
  obtain ⟨responses', after', settles', calmSole, drew⟩ := follows.settles_alone draws
  rw [none] at settles' drew
  obtain ⟨low, settled⟩ := settles
  obtain ⟨high, settled'⟩ := settles'
  refine ⟨max low high, fun more le => ?_⟩
  intro values pulls
  rw [settled more (Nat.le_trans (Nat.le_max_left _ _) le)]
  have alone := settled' more (Nat.le_trans (Nat.le_max_right _ _) le)
  exact ⟨calmAlone, alone ▸ calmSole, alone ▸ drew⟩

section Itself

/-- Two values behind a suspension are merged with themselves and mapped to themselves and what they
come from, while a consumer is at work already. -/
def mergedWithItself : List (Action Nat Empty Empty) :=
  [.make (.suspend (.cons 1 (.unit 2))), .make (.merge (.ref 0) (.ref 0)), .iterate 0, .pull 0,
    .make (.mapcat (.ref 1) fun value => .merge (.unit value) (.ref 0))]

/-- The merge is forced, the mapped stream cloned and the first consumer goes on. -/
def forcedBetween : List (Action Nat Empty Empty) := [.force 1, .make (.ref 2), .pull 0]

/-- Three consumers take turns on the clone and on the streams it comes from. -/
def takenInTurns : List (Action Nat Empty Empty) :=
  [.pull 1, .force 2, .pull 0, .pull 1, .force 0, .iterate 2, .pull 2, .pull 2, .pull 1]

/-- A stream that is merged with itself and mapped gives a consumer of a clone the values that it
gives its only consumer. -/
theorem consumer_among_others :
    let built := performAll nofun 9 mergedWithItself empty
    let busy := performAll nofun 9 forcedBetween built.2
    let shared := performAll nofun 9 (.iterate 4 :: takenInTurns) busy.2
    let values := [some 1, some 1, some 2]
    drawn 1 (.iterate 4 :: takenInTurns) shared.1 = values ∧ ∃ enough, ∀ more, enough ≤ more →
      let pulls := .iterate 2 :: List.replicate 3 (.pull 0)
      let alone := performAll nofun more (mergedWithItself.filter Action.makes) empty
      drawn 0 pulls (performAll nofun more pulls alone.2).1 = values := by
  intro built busy shared values
  have drew : drawn 1 (.iterate 4 :: takenInTurns) shared.1 = values := by decide +kernel
  have calm : Calm built.1 ∧ Calm busy.1 ∧ Calm shared.1 := by decide +kernel
  have count : busy.2.iterators.size = 1 := by decide +kernel
  have clone : busy.2.stream 4 = built.2.stream 2 := by rfl
  obtain ⟨enough, draws⟩ := consumers_draw_alone _ 9 mergedWithItself forcedBetween takenInTurns 2 4
    (rfl : _ = built) (rfl : _ = busy) (rfl : _ = shared) calm clone
  rw [count, drew] at draws
  exact ⟨drew, enough, fun more le => (draws more le).2.2⟩

end Itself

end Session

end Relational
