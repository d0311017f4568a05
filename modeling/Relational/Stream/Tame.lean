import Relational.Stream.LifeCycle

/-!
# Tame plans

A plan is tame if nothing that is waiting has to be forced to carry it out: it forces nothing by
itself and every routine that it calls is put off until somebody forces it. Values are of some good
kind throughout, only fine routines are called, and there is one excuse for giving up.

A run ends if there is a bound from which on it always comes to the same end. A session is sound if
forcing any of its cells ends, and nothing that consumers may do next ever comes to a cell that is
under way.
-/
namespace Relational

variable {α ε ρ γ : Type}

section Kinds

variable (good : α → Prop) (fine : ρ → Prop) (excuse : Fault)

/-- Carrying out the plan forces nothing that is waiting. -/
inductive Plan.Tame : Plan α ε ρ → Prop where
  /-- Nothing is made. -/
  | empty : Tame .empty
  /-- A good value is made. -/
  | unit {value : α} (is : good value) : Tame (.unit value)
  /-- Tame streams are merged. -/
  | merge {left right : Plan α ε ρ} (first : Tame left) (second : Tame right) :
    Tame (.merge left right)
  /-- The values of a tame stream are mapped by a body that is tame where they are good. -/
  | mapcat {source : Plan α ε ρ} {body : α → Plan α ε ρ} (values : Tame source)
    (applied : ∀ value, good value → Tame (body value)) : Tame (.mapcat source body)
  /-- A tame stream is shared. -/
  | share {stream body : Plan α ε ρ} (shared : Tame stream) (rest : Tame body) :
    Tame (.share stream body)
  /-- A stream made before is used. -/
  | ref (index : Nat) : Tame (.ref index)
  /-- A fine routine is called when the suspension is forced. -/
  | delay {routine : ρ} (is : fine routine) : Tame (.suspend (.call routine))
  /-- An event is reported. -/
  | report {event : ε} {next : Plan α ε ρ} (rest : Tame next) : Tame (.report event next)
  /-- A tame plan is worked out. -/
  | computed {plan : Unit → Plan α ε ρ} (rest : Tame (plan ())) : Tame (.computed plan)
  /-- The plan is given up for the excuse. -/
  | fail : Tame (.fail excuse)

/-- The value at the front of a stream is good. -/
def Stream.Front : Stream α → Prop
  | .cons head _ => good head
  | _ => True

/-- Doing the work forces only what it names and carries out tame plans only. -/
def Work.Tame : Work α ε ρ → Prop
  | .known stream => stream.Front good
  | .plan content _ => ∃ routine, content = .call routine ∧ fine routine
  | .merge _ _ => True
  | .mapcat _ body scope =>
    (∀ value, good value → (body value).Tame good fine excuse) ∧
      ∀ stream ∈ scope, stream.Front good
  | .pull _ _ => False

/-- The action makes streams by tame plans only. -/
def Action.Tame : Action α ε ρ → Prop
  | .make plan => plan.Tame good fine excuse
  | _ => True

end Kinds

/-- Between two heaps only cells below a limit were started. -/
def Heap.Opens (before : Heap α ε ρ) (limit : Nat) (after : Heap α ε ρ) : Prop :=
  ∃ started, after.starts = before.starts ++ started ∧ ∀ cell ∈ started, cell < limit

/-- Under every bound that is large enough the run comes to the same end. It has a result or is
given up for the excuse, and it starts only cells below the limit. -/
def Run.Ends (excuse : Fault) (run : Nat → Run α ε ρ γ) (heap : Heap α ε ρ) (limit : Nat) : Prop :=
  ∃ enough outcome, (∀ bound, enough ≤ bound → run bound heap = outcome) ∧
    heap.Opens limit (left outcome) ∧ ∀ stop after, outcome = .error stop after →
      stop = .fault excuse

/-- Whatever consumers may do next in a session ends or is given up for the excuse. -/
structure Session.Sound (routines : ρ → Plan α ε ρ) (may : Action α ε ρ → Prop) (excuse : Fault)
    (session : Session α ε ρ) : Prop where
  /-- Nothing is under way. -/
  idle : ∀ cell, session.heap.status? cell ≠ some .running
  /-- Forcing a cell ends. It starts nothing but the cell and older ones. -/
  force : ∀ cell, Run.Ends excuse (fun bound => (handlers routines bound).force cell) session.heap
    (cell + 1)
  /-- Making a stream ends and starts nothing. -/
  make : ∀ plan, may (.make plan) →
    Run.Ends excuse (fun bound => plan.eval (handlers routines bound) session.streams.toList)
      session.heap 0
  /-- No action is given up for anything but the bound and the excuse. -/
  respond : ∀ action, may action → ∀ bound stop,
    (session.perform routines bound action).1 = .stopped stop →
      stop = .unfinished ∨ stop = .fault excuse

end Relational
