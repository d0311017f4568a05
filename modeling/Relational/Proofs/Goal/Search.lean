import Relational.Proofs.Goal.Derivation
import Relational.Proofs.Stream.Emission
import Relational.Proofs.Stream.Pulling

/-!
# What searches find

A search pulls exactly the states that its stream emits. The stream of a goal can be followed as
far as is asked for, wherever indices do not run out on the way, and it emits the states that the
goal derives: nothing else, and each of them after finitely many steps.
-/
namespace Relational

variable {A δ : Type}

variable [BEq A] [Decidable (ReflBEq A)] {program : Program A δ}

namespace Search

/-- All that can be known of the searches of a program. -/
noncomputable abbrev reading (program : Program A δ) : Reading (State A) Event (δ × State A) :=
  .full program.routines .empty

/-- The reading of searches follows everything to the end. -/
theorem reading_fixed (program : Program A δ) :
    Reading.Fixed program.routines .empty (reading program) :=
  Reading.limit_fixed program.routines .empty

/-- A search that is carried out makes the stream that is read. -/
theorem eval_of_read {search : Search A δ} {stream : Unshared (State A) Event (δ × State A)}
    (read : search.read (reading program) [] = some stream) :
    ∃ bound made after, search.eval (handlers program.routines bound) [] .empty = .ok made after :=
  complete_of_implements
    (fun depth =>
      (Comparison.executes_upTo depth).closedPlan Heap.closed_empty.realizes_full search)
    (Heap.undisturbed program.routines .empty) (Reading.Gradual.plan search []) read

/-- The stream that a search makes shows what is seen of the stream that is read. -/
theorem exists_of_eval {search : Search A δ} {bound : Nat} {made : Stream (State A)}
    {after : SearchHeap A δ}
    (ran : search.eval (handlers program.routines bound) [] .empty = .ok made after) :
    ∃ stream, search.read (reading program) [] = some stream ∧
      ∀ {count steps}, made.Shows program.routines after count steps ↔
        stream.observe (reading program) count = some steps := by
  obtain ⟨recipe, stream, read, grows, realizes, within, rfl⟩ := sound_of_implements
    (fun depth =>
      (Comparison.executes_upTo depth).closedPlan Heap.closed_empty.realizes_full search)
    ran
  have undisturbed := (Heap.undisturbed program.routines .empty).grows grows
  exact ⟨_, read, Stream.shows_iff undisturbed realizes within⟩

/-- A state is among the first states of a search if the stream of the search emits it. -/
theorem mem_take_iff {search : Search A δ} {answer : State A} :
    (∃ bound count answers, Search.take program bound count search = .ok answers ∧
      answer ∈ answers) ↔
        ∃ stream, search.read (reading program) [] = some stream ∧
          stream.Emits (reading program) answer := by
  constructor
  · rintro ⟨bound, count, answers, taken, member⟩
    unfold Search.take at taken
    cases ran : search.eval (handlers program.routines bound) [] .empty with
    | error stop after =>
      simp only [ran] at taken
      exact nomatch taken
    | ok made after =>
      simp only [ran] at taken
      obtain ⟨stream, read, shows⟩ := exists_of_eval ran
      rcases Stream.Iterator.reveals_of_mem_takeAfter taken member with impossible | revealed
      · exact nomatch impossible
      · obtain ⟨far, steps, last, seen, member⟩ := revealed.exists_observe
        exact ⟨stream, read, .of_observe (shows.mp ⟨bound, last, seen⟩) member⟩
  · rintro ⟨stream, read, emitted⟩
    obtain ⟨far, steps, observed, member⟩ := emitted.exists_observe
    obtain ⟨first, made, after, ran⟩ := eval_of_read read
    obtain ⟨other, read', shows⟩ := exists_of_eval ran
    rw [read, Option.some.injEq] at read'
    obtain ⟨second, last, seen⟩ := shows.mpr (read' ▸ observed)
    obtain ⟨low, count, answers, member, pulled⟩ :=
      Stream.Iterator.exists_takeAfter (Stream.Reveals.of_observe seen member) []
    let bound := max first (max second low)
    have enough : first ≤ bound ∧ second ≤ bound ∧ low ≤ bound := by omega
    have ran := ((Handlers.Steady.plan search []).refines (handlers_mono _ enough.1)).ok ran
    have taken := Stream.Iterator.takeAfter_refines (handlers_mono _ enough.2.1) (by simp)
      (pulled bound enough.2.2)
    refine ⟨bound, count, answers, ?_, member⟩
    unfold Search.take
    simp only [ran]
    exact taken

/-! ## What the forms of searches make -/

/-- One more than so many steps of a search can be followed, and the states among them are good. -/
def Finds (program : Program A δ) (count : Nat) (search : Search A δ) (good : State A → Prop) :
    Prop :=
  ∀ scope, ∃ stream, search.read (reading program) scope = some stream ∧
    ∃ steps, stream.observe (reading program) (count + 1) = some steps ∧
      ∀ state, .value state ∈ steps → good state

/-- Every stream of a search that can be followed emits a state. -/
def Brings (program : Program A δ) (search : Search A δ) (answer : State A) : Prop :=
  ∀ scope stream, search.read (reading program) scope = some stream →
    stream.Live (reading program) → stream.Emits (reading program) answer

variable {count : Nat} {search : Search A δ} {good : State A → Prop} {answer : State A}

/-- A search that can be followed however far makes streams that can be followed and emit good
states. -/
theorem live_of_finds (finds : ∀ count, Finds program count search good)
    (scope : List (Unshared (State A) Event (δ × State A))) :
    ∃ stream, search.read (reading program) scope = some stream ∧
      stream.Live (reading program) ∧
        ∀ state, stream.Emits (reading program) state → good state := by
  obtain ⟨stream, read, _⟩ := finds 0 scope
  have followed : ∀ count, ∃ steps, stream.observe (reading program) (count + 1) = some steps ∧
      ∀ state, .value state ∈ steps → good state := by
    intro count
    obtain ⟨other, read', seen⟩ := finds count scope
    rw [read, Option.some.injEq] at read'
    exact read' ▸ seen
  refine ⟨stream, read, .of_succ fun count => ?_, fun state emitted => ?_⟩
  · obtain ⟨steps, seen, _⟩ := followed count
    exact ⟨steps, seen⟩
  · obtain ⟨far, steps, seen, member⟩ := emitted.exists_observe
    obtain ⟨others, seen', fine⟩ := followed far
    rw [seen, Option.some.injEq] at seen'
    exact fine state (seen' ▸ member)

/-- Good states are states of every weaker kind. -/
theorem Finds.imp {better : State A → Prop} (finds : Finds program count search better)
    (weaker : ∀ state, better state → good state) : Finds program count search good := by
  intro scope
  obtain ⟨stream, read, steps, seen, fine⟩ := finds scope
  exact ⟨stream, read, steps, seen, fun state member => weaker state (fine state member)⟩

/-- There are no states in a search without any. -/
theorem finds_empty : Finds program count (.empty : Search A δ) good := by
  intro scope
  refine ⟨.empty, rfl, [.finish], Unshared.observe_empty _ count, fun state member => ?_⟩
  exact nomatch List.mem_singleton.mp member

/-- The state of a search for one is found. -/
theorem finds_unit {state : State A} (fine : good state) :
    Finds program count (.unit state : Search A δ) good := by
  intro scope
  have behind : (Recipe.known .empty).observe (reading program) count =
      (Unshared.empty : Unshared (State A) Event (δ × State A)).observe (reading program) count :=
    Unshared.observe_known (reading_fixed program) .empty count
  have rest : ∃ steps, (Unshared.empty : Unshared (State A) Event (δ × State A)).observe
      (reading program) count = some steps ∧ ∀ other, .value other ∉ steps := by
    cases count with
    | zero => exact ⟨[], Unshared.observe_zero _ _, fun _ impossible => nomatch impossible⟩
    | succ count =>
      refine ⟨[.finish], Unshared.observe_empty _ count, fun other member => ?_⟩
      exact nomatch List.mem_singleton.mp member
  obtain ⟨steps, seen, none⟩ := rest
  refine ⟨_, rfl, .value state :: steps, ?_, fun other member => ?_⟩
  · rw [Unshared.observe_cons, behind, seen, Option.map_some]
  · rcases List.mem_cons.mp member with same | member
    · cases same
      exact fine
    · exact absurd member (none other)

/-- The state of a search for one is brought. -/
theorem brings_unit (state : State A) : Brings program (.unit state : Search A δ) state := by
  intro scope stream read _
  cases read
  exact .head

/-- What a search finds depends on what is read. -/
theorem Finds.congr {other : Search A δ} (finds : Finds program count search good)
    (same : ∀ scope, other.read (reading program) scope = search.read (reading program) scope) :
    Finds program count other good := by
  intro scope
  rw [same]
  exact finds scope

/-- What a search brings depends on what is read. -/
theorem Brings.congr {other : Search A δ} (brings : Brings program search answer)
    (same : ∀ scope, other.read (reading program) scope = search.read (reading program) scope) :
    Brings program other answer :=
  fun scope stream read => brings scope stream ((same scope).symm.trans read)

/-- Events do not change what is read. -/
theorem read_reportAll (events : List Event)
    (scope : List (Unshared (State A) Event (δ × State A))) :
    (Plan.reportAll events search).read (reading program) scope =
      search.read (reading program) scope := by
  induction events with
  | nil => rfl
  | cons event events same => exact same

section Mapping

variable {body : State A → Search A δ} {next : State A → State A → Prop}

/-- A flat map finds what the body finds from the states of the source. -/
theorem Finds.mapcat (finds : Finds program count search good)
    (applied : ∀ state, good state → Finds program count (body state) (next state)) :
    Finds program count (.mapcat search body) fun answer =>
      ∃ state, good state ∧ next state answer := by
  intro scope
  obtain ⟨source, read, steps, seen, fine⟩ := finds scope
  obtain ⟨mapped, made, shown, seen, kept⟩ := Unshared.exists_observe_mapcatWith
    (reading_fixed program) seen fun state member => applied state (fine state member) scope
  refine ⟨mapped, ?_, shown, seen, fun answer member => ?_⟩
  · show (search.read (reading program) scope).bind _ = _
    rw [read, Option.bind_some, ← made]
  · obtain ⟨state, there, found⟩ := kept answer member
    exact ⟨state, fine state there, found⟩

/-- A flat map that can be followed is made of a source that can be followed, and of streams that
can be followed of the states that the source emits. -/
theorem exists_live_of_read_mapcat {scope : List (Unshared (State A) Event (δ × State A))}
    {mapped : Unshared (State A) Event (δ × State A)}
    (read : (Plan.mapcat search body).read (reading program) scope = some mapped)
    (live : mapped.Live (reading program)) :
    ∃ source, search.read (reading program) scope = some source ∧
      (source.mapcatWith (reading program) body scope fun state =>
        (body state).read (reading program) scope) = some mapped ∧
      source.Live (reading program) ∧ ∀ state, source.Emits (reading program) state →
        ∃ stream, (body state).read (reading program) scope = some stream ∧
          stream.Live (reading program) := by
  obtain ⟨source, readSource, made⟩ := Option.bind_eq_some_iff.mp read
  exact ⟨source, readSource, made, live.of_mapcatWith (reading_fixed program) made⟩

/-- A flat map brings what the body brings from a state that the source brings. -/
theorem Brings.mapcat {state : State A} (brings : Brings program search state)
    (later : Brings program (body state) answer) :
    Brings program (.mapcat search body) answer := by
  intro scope mapped read live
  obtain ⟨source, readSource, made, liveSource, applied⟩ := exists_live_of_read_mapcat read live
  have emitted := brings scope source readSource liveSource
  obtain ⟨stream, readStream, liveStream⟩ := applied state emitted
  exact live.emits_mapcatWith (reading_fixed program) made emitted readStream
    (later scope stream readStream liveStream)

end Mapping

section Delaying

variable {routine : δ × State A}

/-- What a delayed routine is forced to is what the routine makes. -/
theorem force_call (scope : List (Unshared (State A) Event (δ × State A))) :
    (reading program).force (.plan (.call routine) scope) =
      (program.routines routine).read (reading program) [] := by
  rw [(reading_fixed program).force]
  exact (reading_fixed program).call routine

/-- A delayed routine is followed one step less far than its suspension. -/
theorem finds_suspend (finds : ∀ fewer, count = fewer + 1 →
      Finds program fewer (program.routines routine) good) :
    Finds program count (.suspend (.call routine)) good := by
  intro scope
  refine ⟨_, rfl, ?_⟩
  rw [Unshared.observe_suspended]
  cases count with
  | zero =>
    refine ⟨[.tick], rfl, fun state member => ?_⟩
    exact nomatch List.mem_singleton.mp member
  | succ count =>
    obtain ⟨stream, read, steps, seen, fine⟩ := finds count rfl []
    have behind : (Recipe.plan (.call routine) scope).observe (reading program) (count + 1) =
        some steps :=
      Recipe.observe_succ_eq_some.mpr ⟨stream, (force_call scope).trans read, seen⟩
    refine ⟨.tick :: steps, by rw [behind, Option.map_some], fun state member => ?_⟩
    rcases List.mem_cons.mp member with impossible | member
    · exact nomatch impossible
    · exact fine state member

/-- A delayed routine brings what the routine brings. -/
theorem brings_suspend (brings : Brings program (program.routines routine) answer) :
    Brings program (.suspend (.call routine)) answer := by
  intro scope stream read live
  cases read
  obtain ⟨behind, forced, liveBehind⟩ := live.content
  exact .suspended forced (brings [] behind ((force_call scope).symm.trans forced) liveBehind)

end Delaying

end Search

end Relational
