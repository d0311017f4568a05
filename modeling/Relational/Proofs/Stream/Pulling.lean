import Relational.Proofs.Stream.Bounds

/-!
# Pulling and seeing

An iterator comes to exactly the values that are seen among the steps of its stream: each pull
goes over the ticks to the next value, and behind the last pull nothing has been forced that is
not forced by seeing as many steps. A bound that is large enough for one pull is large enough for
fewer ones.
-/
namespace Relational.Stream

variable {α ε ρ : Type} {handlers : Handlers α ε ρ} {heap : Heap α ε ρ} {value : α}

/-- A value comes to light by forcing cells one behind the other. -/
inductive Reveals (handlers : Handlers α ε ρ) : Heap α ε ρ → Stream α → α → Prop where
  /-- It is there. -/
  | head {heap : Heap α ε ρ} {head : α} {tail : CellId} :
    Reveals handlers heap (cons head tail) head
  /-- It comes after another value. -/
  | tail {heap after : Heap α ε ρ} {head value : α} {tail : CellId} {stream : Stream α}
    (forced : handlers.force tail heap = .ok stream after)
    (later : Reveals handlers after stream value) : Reveals handlers heap (cons head tail) value
  /-- It comes after a tick. -/
  | suspended {heap after : Heap α ε ρ} {value : α} {cell : CellId} {stream : Stream α}
    (forced : handlers.force cell heap = .ok stream after)
    (later : Reveals handlers after stream value) :
    Reveals handlers heap (suspended cell) value

/-- Where no steps are asked for, none are seen. -/
theorem observe_zero (stream : Stream α) : stream.observe handlers 0 heap = .ok [] heap := by
  cases stream <;> rfl

/-- What is seen behind the first step of a stream is seen behind the cell that is forced. -/
theorem observe_behind {count : Nat} {first : Step α} {cell : CellId} {steps : Steps α}
    {after : Heap α ε ρ}
    (seen : (handlers.force cell >>= fun stream => stream.observe handlers count >>= fun steps =>
      pure (first :: steps) : Run α ε ρ (Steps α)) heap = .ok steps after) :
    ∃ rest stream between, steps = first :: rest ∧ handlers.force cell heap = .ok stream between ∧
      stream.observe handlers count between = .ok rest after := by
  obtain ⟨stream, between, forced, seen⟩ := Run.bind_eq_ok.mp seen
  obtain ⟨rest, last, seen, ended⟩ := Run.bind_eq_ok.mp seen
  cases ended
  exact ⟨rest, stream, between, rfl, forced, seen⟩

/-- A value among the first steps comes to light. -/
theorem Reveals.of_observe {count : Nat} {stream : Stream α} {steps : Steps α}
    {after : Heap α ε ρ} (seen : stream.observe handlers count heap = .ok steps after)
    (member : .value value ∈ steps) : Reveals handlers heap stream value := by
  induction count generalizing stream heap steps with
  | zero =>
    rw [observe_zero] at seen
    cases seen
    exact nomatch member
  | succ count later =>
    cases stream with
    | empty =>
      cases count <;> cases seen <;> exact nomatch List.mem_singleton.mp member
    | cons head tail =>
      cases count with
      | zero =>
        cases seen
        cases List.mem_singleton.mp member
        exact .head
      | succ count =>
        obtain ⟨rest, stream, between, rfl, forced, seen⟩ := observe_behind seen
        rcases List.mem_cons.mp member with same | member
        · cases same
          exact .head
        · exact .tail forced (later seen member)
    | suspended cell =>
      cases count with
      | zero =>
        cases seen
        exact nomatch List.mem_singleton.mp member
      | succ count =>
        obtain ⟨rest, stream, between, rfl, forced, seen⟩ := observe_behind seen
        rcases List.mem_cons.mp member with same | member
        · exact nomatch same
        · exact .suspended forced (later seen member)

/-- A value that comes to light is among the first steps. -/
theorem Reveals.exists_observe {stream : Stream α} (seen : Reveals handlers heap stream value) :
    ∃ count steps after, stream.observe handlers (count + 1) heap = .ok steps after ∧
      .value value ∈ steps := by
  induction seen with
  | @head heap head tail => exact ⟨0, [.value head], heap, rfl, List.mem_singleton.mpr rfl⟩
  | @tail heap after head value tail stream forced _ later =>
    obtain ⟨count, steps, last, seen, member⟩ := later
    exact ⟨count + 1, .value head :: steps, last, Run.bind_eq_ok.mpr ⟨stream, after, forced,
      Run.bind_eq_ok.mpr ⟨steps, last, seen, rfl⟩⟩, List.mem_cons_of_mem _ member⟩
  | @suspended heap after value cell stream forced _ later =>
    obtain ⟨count, steps, last, seen, member⟩ := later
    exact ⟨count + 1, .tick :: steps, last, Run.bind_eq_ok.mpr ⟨stream, after, forced,
      Run.bind_eq_ok.mpr ⟨steps, last, seen, rfl⟩⟩, List.mem_cons_of_mem _ member⟩

/-- Where a pull comes to an end, it comes to the same end under every larger bound. -/
theorem uncons?_mono {low high : Nat} (le : low ≤ high) {stream : Stream α}
    {result : Option (α × Stream α)} {after : Heap α ε ρ}
    (pulled : stream.uncons? handlers low heap = .ok result after) :
    stream.uncons? handlers high heap = .ok result after := by
  induction low generalizing stream heap high with
  | zero =>
    cases stream with
    | empty => cases high <;> exact pulled
    | cons head tail => cases high <;> exact pulled
    | suspended cell => exact nomatch pulled
  | succ low further =>
    obtain ⟨high, rfl⟩ : ∃ rest, high = rest + 1 := ⟨high - 1, by omega⟩
    cases stream with
    | empty => exact pulled
    | cons head tail => exact pulled
    | suspended cell =>
      obtain ⟨stream, between, forced, pulled⟩ := Run.bind_eq_ok.mp pulled
      exact Run.bind_eq_ok.mpr ⟨stream, between, forced, further (by omega) pulled⟩

/-- A value that is pulled comes to light, and so does what comes to light behind it. -/
theorem reveals_of_uncons? {bound : Nat} {stream rest : Stream α} {head : α} {after : Heap α ε ρ}
    (pulled : stream.uncons? handlers bound heap = .ok (some (head, rest)) after) :
    Reveals handlers heap stream head ∧
      ∀ value, Reveals handlers after rest value → Reveals handlers heap stream value := by
  have first : ∀ {heap : Heap α ε ρ} {other : α} {tail : CellId},
      (pure (some (other, suspended tail)) : Run α ε ρ _) heap = .ok (some (head, rest)) after →
        Reveals handlers heap (cons other tail) head ∧
          ∀ value, Reveals handlers after rest value →
            Reveals handlers heap (cons other tail) value := by
    intro heap other tail pulled
    cases pulled
    refine ⟨.head, fun value seen => ?_⟩
    cases seen with
    | suspended forced later => exact .tail forced later
  induction bound generalizing stream heap with
  | zero =>
    cases stream with
    | empty => exact nomatch pulled
    | cons other tail => exact first pulled
    | suspended cell => exact nomatch pulled
  | succ bound further =>
    cases stream with
    | empty => exact nomatch pulled
    | cons other tail => exact first pulled
    | suspended cell =>
      obtain ⟨stream, between, forced, pulled⟩ := Run.bind_eq_ok.mp pulled
      obtain ⟨seen, behind⟩ := further pulled
      exact ⟨.suspended forced seen, fun value later => .suspended forced (behind value later)⟩

namespace Iterator

/-- Pulling goes on with what a pull leaves, if it leaves a value. -/
theorem takeAfter_succ (bound count : Nat) (before : List α) (stream : Stream α)
    (heap : Heap α ε ρ) :
    (takeAfter handlers bound before (count + 1) ⟨stream⟩ heap).outcome =
      match stream.uncons? handlers bound heap with
      | .ok (some (head, rest)) after =>
        (takeAfter handlers bound (head :: before) count ⟨rest⟩ after).outcome
      | .ok none _ => .ok before.reverse
      | .error stop _ => .error stop := by
  rw [takeAfter]
  unfold next
  cases stream.uncons? handlers bound heap with
  | error stop after => rfl
  | ok result after => cases result <;> rfl

/-- Pulling comes to an end where a pull does, or behind what it leaves. -/
theorem takeAfter_succ_eq_ok {bound count : Nat} {before answers : List α} {stream : Stream α} :
    (takeAfter handlers bound before (count + 1) ⟨stream⟩ heap).outcome = .ok answers ↔
      (∃ after, stream.uncons? handlers bound heap = .ok none after ∧ before.reverse = answers) ∨
        ∃ head rest after, stream.uncons? handlers bound heap = .ok (some (head, rest)) after ∧
          (takeAfter handlers bound (head :: before) count ⟨rest⟩ after).outcome =
            .ok answers := by
  rw [takeAfter_succ]
  cases stream.uncons? handlers bound heap with
  | error stop after => simp
  | ok result after =>
    cases result with
    | none => simp
    | some entry =>
      constructor
      · exact fun pulled => .inr ⟨entry.1, entry.2, after, rfl, pulled⟩
      · rintro (⟨_, impossible, _⟩ | ⟨head, rest, _, same, pulled⟩)
        · exact nomatch impossible
        · cases same
          exact pulled

/-- Unless it is unfinished, pulling comes to the same with handlers that refine those used. -/
theorem takeAfter_refines {more : Handlers α ε ρ} (refines : handlers.Refines more)
    {bound count : Nat} {before : List α} {stream : Stream α} {outcome : Except Stop (List α)}
    (ended : outcome ≠ .error .unfinished)
    (pulled : (takeAfter handlers bound before count ⟨stream⟩ heap).outcome = outcome) :
    (takeAfter more bound before count ⟨stream⟩ heap).outcome = outcome := by
  induction count generalizing before stream heap with
  | zero => exact pulled
  | succ count further =>
    rw [takeAfter_succ] at pulled ⊢
    rcases (Handlers.Steady.uncons? bound stream).refines refines heap with
      ⟨after, unfinished⟩ | same
    · rw [unfinished] at pulled
      exact absurd pulled.symm ended
    · rw [same] at pulled
      cases ran : stream.uncons? more bound heap with
      | error stop after => simpa only [ran] using pulled
      | ok result after =>
        rw [ran] at pulled
        cases result with
        | none => exact pulled
        | some entry => exact further pulled

/-- Where pulling behind a forced cell comes to the same under a bound and the next one, pulling
from the cell comes to that as well. -/
theorem takeAfter_suspended {cell : CellId} {stream : Stream α} {between : Heap α ε ρ}
    (forced : handlers.force cell heap = .ok stream between) {bound count : Nat}
    {before : List α} {outcome : Except Stop (List α)}
    (pulled : (takeAfter handlers bound before count ⟨stream⟩ between).outcome = outcome)
    (more : (takeAfter handlers (bound + 1) before count ⟨stream⟩ between).outcome = outcome) :
    (takeAfter handlers (bound + 1) before count ⟨suspended cell⟩ heap).outcome = outcome := by
  cases count with
  | zero => exact more
  | succ count =>
    have first : (suspended cell).uncons? handlers (bound + 1) heap =
        stream.uncons? handlers bound between := by
      show (handlers.force cell >>= fun stream => uncons? handlers bound stream) heap = _
      rw [Run.bind_apply, forced]
    rw [takeAfter_succ] at pulled more ⊢
    rw [first]
    cases ran : stream.uncons? handlers bound between with
    | error stop after => simpa only [ran] using pulled
    | ok result after =>
      rw [ran] at pulled
      rw [uncons?_mono (Nat.le_succ bound) ran] at more
      cases result with
      | none => exact pulled
      | some entry => exact more

/-- Where forcing one cell after another is given up, so is pulling: under every bound that is large
enough and for every number of values that is. -/
theorem exists_takeAfter_eq_error {count : Nat} {stream : Stream α} {stop : Stop}
    {after : Heap α ε ρ} (stopped : stream.observe handlers count heap = .error stop after) :
    ∃ enough, ∀ {bound more : Nat} (before : List α), enough ≤ bound → enough ≤ more →
      (takeAfter handlers bound before more ⟨stream⟩ heap).outcome = .error stop := by
  induction count generalizing stream heap with
  | zero => exact nomatch (observe_zero stream).symm.trans stopped
  | succ count further =>
    have behind : ∀ {cell : CellId} {first : Step α},
        (handlers.force cell >>= fun stream => stream.observe handlers count >>= fun steps =>
          pure (first :: steps) : Run α ε ρ (Steps α)) heap = .error stop after →
        ∃ enough, ∀ {bound more : Nat} (before : List α), enough ≤ bound → enough ≤ more →
          (takeAfter handlers bound before more ⟨suspended cell⟩ heap).outcome = .error stop := by
      intro cell first stopped
      rcases Run.bind_eq_error.mp stopped with stopped | ⟨stream, between, forced, stopped⟩
      · refine ⟨1, fun {bound more} before low high => ?_⟩
        obtain ⟨bound, rfl⟩ : ∃ rest, bound = rest + 1 := ⟨bound - 1, by omega⟩
        obtain ⟨more, rfl⟩ : ∃ rest, more = rest + 1 := ⟨more - 1, by omega⟩
        have pulled : (suspended cell).uncons? handlers (bound + 1) heap = .error stop after :=
          Run.bind_eq_error.mpr (.inl stopped)
        rw [takeAfter_succ, pulled]
      · rcases Run.bind_eq_error.mp stopped with stopped | ⟨_, _, _, impossible⟩
        · obtain ⟨enough, pulled⟩ := further stopped
          refine ⟨enough + 1, fun {bound more} before low high => ?_⟩
          obtain ⟨bound, rfl⟩ : ∃ rest, bound = rest + 1 := ⟨bound - 1, by omega⟩
          exact takeAfter_suspended forced (pulled before (by omega) (by omega))
            (pulled before (by omega) (by omega))
        · exact nomatch impossible
    cases stream with
    | empty => cases count <;> exact nomatch stopped
    | suspended cell =>
      cases count with
      | zero => exact nomatch stopped
      | succ count => exact behind stopped
    | cons head tail =>
      cases count with
      | zero => exact nomatch stopped
      | succ count =>
        obtain ⟨enough, pulled⟩ := behind stopped
        refine ⟨enough + 1, fun {bound more} before low high => ?_⟩
        obtain ⟨more, rfl⟩ : ∃ rest, more = rest + 1 := ⟨more - 1, by omega⟩
        have first : (cons head tail).uncons? handlers bound heap =
            .ok (some (head, suspended tail)) heap := by cases bound <;> rfl
        rw [takeAfter_succ, first]
        exact pulled (head :: before) (by omega) (by omega)

/-- Every value that is pulled comes to light. -/
theorem reveals_of_mem_takeAfter {bound count : Nat} {before answers : List α} {stream : Stream α}
    (pulled : (takeAfter handlers bound before count ⟨stream⟩ heap).outcome = .ok answers)
    (member : value ∈ answers) : value ∈ before ∨ Reveals handlers heap stream value := by
  induction count generalizing before stream heap with
  | zero =>
    cases pulled
    exact .inl (List.mem_reverse.mp member)
  | succ count further =>
    rcases takeAfter_succ_eq_ok.mp pulled with ⟨_, _, same⟩ | ⟨head, rest, after, first, pulled⟩
    · rw [← same] at member
      exact .inl (List.mem_reverse.mp member)
    · obtain ⟨seen, behind⟩ := reveals_of_uncons? first
      rcases further pulled with member | later
      · rcases List.mem_cons.mp member with rfl | member
        · exact .inr seen
        · exact .inl member
      · exact .inr (behind value later)

/-- Every value that comes to light is pulled, under every bound that is large enough. Behind a cell
that is forced the same is pulled, with room for one tick more. -/
theorem exists_takeAfter {stream : Stream α} (seen : Reveals handlers heap stream value)
    (before : List α) : ∃ low count answers, value ∈ answers ∧ ∀ bound, low ≤ bound →
      (takeAfter handlers bound before count ⟨stream⟩ heap).outcome = .ok answers := by
  have behind : ∀ {heap between : Heap α ε ρ} {cell : CellId} {stream : Stream α} {low count : Nat}
      {before answers : List α}, handlers.force cell heap = .ok stream between →
        (∀ bound, low ≤ bound →
          (takeAfter handlers bound before count ⟨stream⟩ between).outcome = .ok answers) →
            ∀ bound, low + 1 ≤ bound →
              (takeAfter handlers bound before count ⟨suspended cell⟩ heap).outcome =
                .ok answers := by
    intro heap between cell stream low count before answers forced pulled bound le
    obtain ⟨bound, rfl⟩ : ∃ rest, bound = rest + 1 := ⟨bound - 1, by omega⟩
    exact takeAfter_suspended forced (pulled bound (by omega)) (pulled (bound + 1) (by omega))
  have head : ∀ {heap : Heap α ε ρ} {head : α} {tail : CellId} {bound count : Nat}
      {before answers : List α},
        (takeAfter handlers bound (head :: before) count ⟨suspended tail⟩ heap).outcome =
          .ok answers →
            (takeAfter handlers bound before (count + 1) ⟨cons head tail⟩ heap).outcome =
              .ok answers := by
    intro heap head tail bound count before answers pulled
    refine takeAfter_succ_eq_ok.mpr (.inr ⟨head, suspended tail, heap, ?_, pulled⟩)
    cases bound <;> rfl
  induction seen generalizing before with
  | @head heap first tail =>
    exact ⟨0, 1, (first :: before).reverse, by simp, fun bound _ => head rfl⟩
  | @tail heap after first value tail stream forced _ later =>
    obtain ⟨low, count, answers, member, pulled⟩ := later (first :: before)
    exact ⟨low + 1, count + 1, answers, member, fun bound le =>
      head (behind forced pulled bound le)⟩
  | @suspended heap after value cell stream forced _ later =>
    obtain ⟨low, count, answers, member, pulled⟩ := later before
    exact ⟨low + 1, count, answers, member, behind forced pulled⟩

end Iterator

end Relational.Stream
