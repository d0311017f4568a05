import Relational.Proofs.Stream.Containment
import Relational.Stream.Failure

/-!
# What is left of streams where work was given up

Where a stream leads is written in cells that are done and in cells whose work is under way, and
such a cell never changes again. So a stream leads to one place only and leads there for good,
whatever is run later, and looking for its next value again runs nothing. What a pull has looked
over it leaves behind in such cells: up to the value or the end that it found, or up to the first
cell whose work was given up with it.
-/
namespace Relational

variable {α ε ρ : Type}

namespace Heap

variable {heap after : Heap α ε ρ} {reach : Nat} {stream front rest rest' : Stream α}
  {seen seen' : Option (α × Stream α)} {values values' : List α} {failing : CellId}

section Later

variable (lives : heap.Lives after)

include lives

/-- What a stream leads to it leads to for good. -/
theorem Knows.later (knows : heap.Knows reach stream seen) : after.Knows reach stream seen := by
  induction knows with
  | empty reach => exact .empty reach
  | cons reach head tail => exact .cons reach head tail
  | done known _ further => exact .done (lives.course.done known) further

/-- A stream that leads to work that was given up leads there for good. -/
theorem Blocks.later (blocks : heap.Blocks failing reach stream) :
    after.Blocks failing reach stream := by
  induction blocks with
  | here running => exact .here (lives.running running)
  | done known _ further => exact .done (lives.course.done known) further

/-- Values that a stream leads to it leads to for good. -/
theorem Yields.later (yields : heap.Yields reach front values rest) :
    after.Yields reach front values rest := by
  induction yields with
  | nil stream => exact .nil stream
  | cons first _ others => exact .cons (first.later lives) others

end Later

/-- A stream leads to one value only. -/
theorem Knows.unique (knows : heap.Knows reach stream seen)
    (knows' : heap.Knows reach stream seen') : seen = seen' := by
  induction knows with
  | empty | cons =>
    cases knows'
    rfl
  | done known _ further =>
    cases knows' with
    | done known' knows' =>
      rw [known, Option.some.injEq, Status.done.injEq] at known'
      subst known'
      exact further knows'

/-- No stream leads both to a value or its end and to work that was given up. -/
theorem Blocks.not_knows (blocks : heap.Blocks failing reach stream) :
    ¬ heap.Knows reach stream seen := by
  intro knows
  induction blocks with
  | here running =>
    cases knows with
    | done known _ =>
      rw [running] at known
      cases known
  | done known _ further =>
    cases knows with
    | done known' knows =>
      rw [known, Option.some.injEq, Status.done.injEq] at known'
      subst known'
      exact further knows

/-- Values that come after others. -/
theorem Yields.append (yields : heap.Yields reach front values rest)
    (others : heap.Yields reach rest values' rest') :
    heap.Yields reach front (values ++ values') rest' := by
  induction yields with
  | nil => exact others
  | cons first _ later => exact .cons first (later others)

/-- Of two lists of values that a stream leads to one goes on where the other ends. -/
theorem Yields.comparable (yields : heap.Yields reach front values rest)
    (yields' : heap.Yields reach front values' rest') :
    (∃ more, values' = values ++ more ∧ heap.Yields reach rest more rest') ∨
      ∃ more, values = values' ++ more ∧ heap.Yields reach rest' more rest := by
  induction yields generalizing values' with
  | nil stream => exact .inl ⟨values', rfl, yields'⟩
  | @cons stream middle last value values first others further =>
    cases yields' with
    | nil => exact .inr ⟨value :: values, rfl, .cons first others⟩
    | cons first' others' =>
      have same := first.unique first'
      rw [Option.some.injEq, Prod.mk.injEq] at same
      obtain ⟨rfl, rfl⟩ := same
      rcases further others' with ⟨more, rfl, goes⟩ | ⟨more, rfl, goes⟩
      · exact .inl ⟨more, rfl, goes⟩
      · exact .inr ⟨more, rfl, goes⟩

/-- All values that a stream leads to come before the work that it leads to and that was given
up. -/
theorem Yields.before_blocks (yields : heap.Yields reach front values rest)
    (blocks : heap.Blocks failing reach rest)
    (yields' : heap.Yields reach front values' rest') :
    ∃ more, values = values' ++ more ∧ heap.Yields reach rest' more rest := by
  rcases yields.comparable yields' with ⟨more, rfl, goes⟩ | ahead
  · cases goes with
    | nil => exact ⟨[], by simp, .nil rest⟩
    | cons first _ => exact absurd first blocks.not_knows
  · exact ahead

end Heap

section Looking

variable {heap after : Heap α ε ρ} {bound reach : Nat} {stream made : Stream α}
  {cell failing : CellId} {seen : Option (α × Stream α)} {routines : ρ → Plan α ε ρ}

/-- At the end there is no next value. -/
theorem uncons?_empty (handlers : Handlers α ε ρ) (reach : Nat) (heap : Heap α ε ρ) :
    Stream.empty.uncons? handlers reach heap = .ok none heap := by
  cases reach <;> rfl

/-- A value at the front of a stream is the next one. -/
theorem uncons?_cons (handlers : Handlers α ε ρ) (reach : Nat) (heap : Heap α ε ρ) (head : α)
    (tail : CellId) : (Stream.cons head tail).uncons? handlers reach heap =
      .ok (some (head, .suspended tail)) heap := by
  cases reach <;> rfl

/-- Where the next value is looked for behind a suspension, its cell is forced first. -/
theorem uncons?_suspended (bound reach : Nat) (cell : CellId) :
    (Stream.suspended cell).uncons? (handlers routines (bound + 1)) (reach + 1) =
      forceCell (handlers routines bound) cell >>= fun made =>
        made.uncons? (handlers routines (bound + 1)) reach :=
  rfl

/-- Looking over a cell that is done goes on with its stream. -/
theorem uncons?_done (known : heap.status? cell = some (.done made)) :
    (Stream.suspended cell).uncons? (handlers routines (bound + 1)) (reach + 1) heap =
      made.uncons? (handlers routines (bound + 1)) reach heap := by
  obtain ⟨work, found⟩ := Heap.exists_of_status? known
  rw [uncons?_suspended]
  exact Run.bind_of_ok (forceCell_done (handlers routines bound) found)

/-- What a stream leads to is found without running anything. -/
theorem Heap.Knows.uncons? (knows : heap.Knows reach stream seen) (le : reach ≤ bound) :
    stream.uncons? (handlers routines bound) reach heap = .ok seen heap := by
  induction knows with
  | empty reach => exact uncons?_empty _ reach heap
  | cons reach head tail => exact uncons?_cons _ reach heap head tail
  | @done reach cell made seen known _ found =>
    obtain ⟨bound, rfl⟩ : ∃ less, bound = less + 1 := ⟨bound - 1, by omega⟩
    rw [uncons?_done known]
    exact found (by omega)

/-- Where a stream leads to work that was given up nothing is run. -/
theorem Heap.Blocks.uncons? (blocks : heap.Blocks failing reach stream) (le : reach ≤ bound) :
    stream.uncons? (handlers routines bound) reach heap =
      .error (.fault .reentrant) heap := by
  induction blocks with
  | here running =>
    obtain ⟨bound, rfl⟩ : ∃ less, bound = less + 1 := ⟨bound - 1, by omega⟩
    obtain ⟨work, found⟩ := Heap.exists_of_status? running
    rw [uncons?_suspended]
    exact Run.bind_of_error (forceCell_running (handlers routines bound) found)
  | done known _ found =>
    obtain ⟨bound, rfl⟩ : ∃ less, bound = less + 1 := ⟨bound - 1, by omega⟩
    rw [uncons?_done known]
    exact found (by omega)

/-- A cell that has been forced is done. -/
theorem status?_of_forceCell (there : cell < heap.cells.size)
    (forced : forceCell (handlers routines bound) cell heap = .ok made after) :
    after.status? cell = some (.done made) := by
  rcases found : heap.cells[cell]? with _ | ⟨work, _ | _ | stream⟩
  · exact absurd there (Nat.not_lt.mpr (Array.getElem?_eq_none_iff.mp found))
  · exact ((Heap.startsOnce routines bound found).finished forced).1
  · rw [forceCell_running _ found] at forced
    cases forced
  · rw [forceCell_done _ found] at forced
    cases forced
    exact Heap.status?_eq found

/-- A cell at which forcing gives up is one whose work is under way from then on. -/
theorem running_of_forceCell {stop : Stop}
    (forced : forceCell (handlers routines bound) cell heap = .error stop after) :
    after.status? cell = some .running := by
  rcases found : heap.cells[cell]? with _ | ⟨work, _ | _ | stream⟩
  · rw [forceCell_missing _ found] at forced
    cases forced
  · exact ((Heap.startsOnce routines bound found).stopped forced).1
  · rw [forceCell_running _ found] at forced
    cases forced
    exact Heap.status?_eq found
  · rw [forceCell_done _ found] at forced
    cases forced

/-- What is left behind of a stream is left behind of a cell that holds it. -/
theorem Heap.LookedOver.suspended
    {outcome : EStateM.Result Stop (Heap α ε ρ) (Option (α × Stream α))}
    (looked : Heap.LookedOver reach made outcome)
    (known : (Run.left outcome).status? cell = some (.done made)) :
    Heap.LookedOver (reach + 1) (.suspended cell) outcome := by
  cases outcome with
  | ok seen after => exact .done known looked
  | error stop after =>
    cases stop with
    | fault fault =>
      obtain ⟨failing, blocks⟩ := looked
      exact ⟨failing, .done known blocks⟩
    | unfinished => trivial

/-- What a pull looks over on a closed heap stays behind in cells. What is run behind a cell leaves
the cell alone. -/
theorem looked_over (routines : ρ → Plan α ε ρ) (bound reach : Nat) {stream : Stream α}
    {heap : Heap α ε ρ} (closed : heap.Closed) (within : stream.Within heap.cells.size) :
    Heap.LookedOver reach stream (stream.uncons? (handlers routines bound) reach heap) := by
  induction reach, stream using Stream.uncons?.induct generalizing heap with
  | case1 reach =>
    rw [uncons?_empty]
    exact .empty reach
  | case2 reach head tail =>
    rw [uncons?_cons]
    exact .cons reach head tail
  | case3 cell => trivial
  | case4 reach cell further =>
    cases bound with
    | zero => trivial
    | succ bound =>
      rw [uncons?_suspended]
      have contained := Handlers.contained_handlers routines bound
      have stays := contained.forceCell within heap closed (Nat.le_refl _)
      cases forced : forceCell (handlers routines bound) cell heap with
      | error stop middle =>
        rw [Run.bind_of_error forced]
        cases stop with
        | fault fault => exact ⟨cell, .here (running_of_forceCell forced)⟩
        | unfinished => trivial
      | ok made middle =>
        rw [Run.bind_of_ok forced]
        have known := status?_of_forceCell within forced
        have closed := stays.closed
        rw [forced] at closed
        have lives := (Handlers.Lasting.uncons? reach made).lasts
          (handlers_last routines (bound + 1)) middle
        exact (further made closed (stays.result forced)).suspended (lives.course.done known)

end Looking

end Relational
