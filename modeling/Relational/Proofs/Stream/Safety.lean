import Relational.Proofs.Stream.Consumption
import Relational.Proofs.Stream.Termination

/-!
# Sessions of tame plans are sound

Between the actions of a session nothing is under way, so whatever a force comes to is older than
all that is under way. As long as no action is given up the heap stays tidy, and the streams and
iterators of the session name cells that are there.
-/
namespace Relational

variable {α ε ρ γ γ' : Type} {good : α → Prop} {fine : ρ → Prop} {excuse : Fault}
  {routines : ρ → Plan α ε ρ}

namespace Run

variable {run : Run α ε ρ γ} {heap : Heap α ε ρ} {right : γ → Heap α ε ρ → Prop}

/-- What is there is safe. -/
theorem Safe.pure {result : γ} (tidy : heap.Tidy good fine excuse) (is : right result heap) :
    Safe good fine excuse (Pure.pure result : Run α ε ρ γ) heap right := by
  refine ⟨fun _ _ impossible => (nomatch impossible), ?_⟩
  rintro _ _ ⟨⟩
  exact ⟨.refl heap .cell, tidy, is⟩

/-- What is unfinished is safe. -/
theorem Safe.unfinished : Safe good fine excuse (unfinished : Run α ε ρ γ) heap right := by
  constructor
  · rintro _ _ ⟨⟩
    exact .inl rfl
  · rintro _ _ ⟨⟩

/-- One run after another. -/
theorem Safe.bind {next : γ → Run α ε ρ γ'} {right' : γ' → Heap α ε ρ → Prop}
    (first : Safe good fine excuse run heap right)
    (second : ∀ {result : γ} {after : Heap α ε ρ}, heap.Rests after →
      after.Tidy good fine excuse → right result after →
        Safe good fine excuse (next result) after right') :
    Safe good fine excuse (run >>= next) heap right' := by
  obtain ⟨stops, results⟩ := first
  cases ran : run heap with
  | error stop after =>
    constructor
    · intro stop' after' stopped
      rw [bind_apply, ran] at stopped
      cases stopped
      exact stops stop after ran
    · intro result after' ended
      rw [bind_apply, ran] at ended
      exact nomatch ended
  | ok result after =>
    obtain ⟨rests, tidy, is⟩ := results result after ran
    obtain ⟨stops', results'⟩ := second rests tidy is
    constructor
    · intro stop final stopped
      rw [bind_apply, ran] at stopped
      exact stops' stop final stopped
    · intro last final ended
      rw [bind_apply, ran] at ended
      obtain ⟨rests', tidy', is'⟩ := results' last final ended
      exact ⟨rests.trans rests', tidy', is'⟩

end Run

namespace Session

variable {session : Session α ε ρ}

/-- The heap of a session is tidy, nothing is under way, and all streams sit on the heap. -/
structure Tidy (good : α → Prop) (fine : ρ → Prop) (excuse : Fault) (session : Session α ε ρ) :
    Prop where
  /-- The heap is tidy. -/
  heap : session.heap.Tidy good fine excuse
  /-- Nothing is under way. -/
  idle : ∀ cell, ¬ session.heap.Running cell
  /-- All streams sit on the heap. -/
  sits : session.All (Stream.Sits good session.heap)

/-- The session without streams is tidy. -/
theorem tidy_empty : (empty : Session α ε ρ).Tidy good fine excuse where
  heap := Heap.tidy_empty
  idle _ running := by
    obtain ⟨_, found⟩ := running
    exact nomatch found
  sits := all_empty _

/-- A session stays tidy while its heap rests. -/
theorem Tidy.later (tidy : session.Tidy good fine excuse) {heap : Heap α ε ρ}
    (rests : session.heap.Rests heap) (kept : heap.Tidy good fine excuse) :
    Tidy good fine excuse { session with heap } where
  heap := kept
  idle cell running := tidy.idle cell (rests.running.mp running)
  sits := tidy.sits.imp (fun sits => sits.later rests) heap

/-- An action was given up for its bound or the excuse only, and if it was not given up the session
is tidy after it. -/
def Safe (good : α → Prop) (fine : ρ → Prop) (excuse : Fault)
    (performed : Response α × Session α ε ρ) : Prop :=
  (∀ stop, performed.1 = .stopped stop → stop = .unfinished ∨ stop = .fault excuse) ∧
    (performed.1.isStopped = false → performed.2.Tidy good fine excuse)

/-- What is not given up is safe if the session is tidy after it. -/
theorem Safe.of_calm {performed : Response α × Session α ε ρ}
    (calm : performed.1.isStopped = false) (tidy : performed.2.Tidy good fine excuse) :
    Safe good fine excuse performed := by
  refine ⟨fun stop stopped => ?_, fun _ => tidy⟩
  rw [stopped] at calm
  exact absurd calm Bool.noConfusion

/-- What is given up is safe if it is given up for its bound or the excuse. -/
theorem Safe.of_stopped {performed : Response α × Session α ε ρ} {stop : Stop}
    (stopped : performed.1 = .stopped stop) (why : stop = .unfinished ∨ stop = .fault excuse) :
    Safe good fine excuse performed := by
  constructor
  · intro stop' same
    cases stopped.symm.trans same
    exact why
  · rw [stopped]
    exact fun calm => absurd calm Bool.noConfusion

/-- Keeping the stream that a safe run makes. -/
theorem Tidy.keep (tidy : session.Tidy good fine excuse) {run : Run α ε ρ (Stream α)}
    (safe : Run.Safe good fine excuse run session.heap fun made after => made.Sits good after) :
    Safe good fine excuse (session.keep run) := by
  obtain ⟨streams, iterators, heap⟩ := session
  obtain ⟨stops, results⟩ := safe
  simp only [Session.keep]
  cases ran : run heap with
  | error stop after => exact .of_stopped rfl (stops stop after ran)
  | ok made after =>
    obtain ⟨rests, kept, sits⟩ := results made after ran
    have later := tidy.later rests kept
    exact .of_calm rfl ⟨later.heap, later.idle, later.sits.make sits⟩

/-- Making a stream by a tame plan ends in a tidy session and starts nothing. -/
theorem Tidy.make (routines : ρ → Plan α ε ρ) (tidy : session.Tidy good fine excuse)
    {plan : Plan α ε ρ} (tame : plan.Tame good fine excuse) :
    Run.EndsIn good fine excuse
      (fun bound => plan.eval (handlers routines bound) session.streams.toList) session.heap 0
      fun made after => made.Sits good after :=
  tame.endsIn tidy.heap fun stream member =>
    tidy.sits.streams stream (Array.mem_toList_iff.mp member)

section Actions

variable (calls : ∀ routine, fine routine → (routines routine).Tame good fine excuse)

include calls

/-- Looking for the next value is safe where nothing is under way. -/
theorem uncons?_safe (bound count : Nat) {heap : Heap α ε ρ} (tidy : heap.Tidy good fine excuse)
    (idle : ∀ cell, ¬ heap.Running cell) {stream : Stream α} (sits : stream.Sits good heap) :
    Run.Safe good fine excuse (stream.uncons? (handlers routines bound) count) heap
      fun found after => (leftover Stream.empty found).Sits good after := by
  induction count, stream using Stream.uncons?.induct generalizing heap with
  | case1 count =>
    rw [Stream.uncons?]
    exact .pure tidy Stream.sits_empty
  | case2 count head tail =>
    rw [Stream.uncons?]
    exact .pure tidy ⟨trivial, sits.2⟩
  | case3 cell => exact .unfinished
  | case4 count cell further =>
    have ends := force_endsIn calls tidy sits.2 fun other running => absurd running (idle other)
    refine (ends.safe (.force cell) bound).bind fun {stream after} rests tidy sits => ?_
    exact further stream tidy (fun other running => idle other (rests.running.mp running)) sits

/-- One step along a stream is safe where nothing is under way. -/
theorem step_safe (bound : Nat) {heap : Heap α ε ρ} (tidy : heap.Tidy good fine excuse)
    (idle : ∀ cell, ¬ heap.Running cell) {stream : Stream α} (sits : stream.Sits good heap) :
    Run.Safe good fine excuse (stream.step (handlers routines bound)) heap
      fun made after => made.Sits good after := by
  have forced : ∀ {cell : CellId}, cell < heap.cells.size →
      Run.Safe good fine excuse ((handlers routines bound).force cell) heap
        fun made after => made.Sits good after := by
    intro cell there
    have ends := force_endsIn calls tidy there fun other running => absurd running (idle other)
    exact ends.safe (.force cell) bound
  cases stream with
  | empty => exact .pure tidy Stream.sits_empty
  | cons head tail => exact forced sits.2
  | suspended cell => exact forced sits.2

/-- Pulling an iterator of a tidy session is safe. -/
theorem Tidy.pull (tidy : session.Tidy good fine excuse) (bound number : Nat) :
    Safe good fine excuse (session.perform routines bound (.pull number)) := by
  obtain ⟨stops, results⟩ :=
    uncons?_safe calls bound bound tidy.heap tidy.idle
      (tidy.sits.iterator Stream.sits_empty number)
  cases ran : (session.iterator number).pending.uncons? (handlers routines bound) bound
      session.heap with
  | error stop after => exact .of_stopped (perform_pull_error ran) (stops stop after ran)
  | ok found after =>
    obtain ⟨rests, kept, sits⟩ := results found after ran
    have later := tidy.later rests kept
    rw [perform_pull ran]
    exact .of_calm rfl ⟨later.heap, later.idle, later.sits.move sits number⟩

/-- Tame actions are safe in a tidy session. -/
theorem Tidy.perform (tidy : session.Tidy good fine excuse) {action : Action α ε ρ}
    (tame : action.Tame good fine excuse) (bound : Nat) :
    Safe good fine excuse (session.perform routines bound action) := by
  cases action with
  | make plan =>
    have ends := tidy.make routines (show plan.Tame good fine excuse from tame)
    exact tidy.keep (ends.safe (.plan plan _) bound)
  | force number =>
    have sits := tidy.sits.stream Stream.sits_empty number
    exact tidy.keep (step_safe calls bound tidy.heap tidy.idle sits)
  | drop number =>
    exact .of_calm rfl ⟨tidy.heap, tidy.idle, tidy.sits.drop Stream.sits_empty number⟩
  | iterate number =>
    have sits := tidy.sits.stream Stream.sits_empty number
    exact .of_calm rfl ⟨tidy.heap, tidy.idle, tidy.sits.iterate sits⟩
  | pull number => exact tidy.pull calls bound number

/-- A session stays tidy as long as no action is given up. -/
theorem Tidy.performAll (tidy : session.Tidy good fine excuse) {bound : Nat}
    {actions : List (Action α ε ρ)} (tame : ∀ action ∈ actions, action.Tame good fine excuse)
    (calm : Calm (session.performAll routines bound actions).1) :
    (session.performAll routines bound actions).2.Tidy good fine excuse := by
  induction actions generalizing session with
  | nil => exact tidy
  | cons action actions further =>
    rw [performAll_cons] at calm ⊢
    obtain ⟨first, calm⟩ := calm_cons.mp calm
    have ⟨now, later⟩ := List.forall_mem_cons.mp tame
    exact further ((tidy.perform calls now bound).2 first) later calm

/-- A tidy session is sound. -/
theorem Tidy.sound (tidy : session.Tidy good fine excuse) :
    session.Sound routines (Action.Tame good fine excuse) excuse where
  idle cell running := by
    obtain ⟨work, found⟩ := Heap.exists_of_status? running
    exact tidy.idle cell ⟨work, found⟩
  force cell := by
    by_cases there : cell < session.heap.cells.size
    · exact (force_endsIn calls tidy.heap there
        fun other running => absurd running (tidy.idle other)).ends
    · have absent : session.heap.cells[cell]? = none :=
        Array.getElem?_eq_none (Nat.le_of_not_lt there)
      have nothing : Run.EndsIn good fine excuse
          (fun _ => (Pure.pure .empty : Run α ε ρ (Stream α))) session.heap (cell + 1)
          fun _ _ => True := .pure tidy.heap trivial
      have ends : Run.EndsIn good fine excuse (fun bound => (handlers routines bound).force cell)
          session.heap (cell + 1) fun _ _ => True :=
        nothing.succ fun bound => forceCell_missing _ absent
      exact ends.ends
  make plan tame := (tidy.make routines tame).ends
  respond action tame bound := (tidy.perform calls tame bound).1

end Actions

end Session

end Relational
