/-!
# First-order terms

A term is a variable, an atom with an opaque payload, or a symbol applied to a list of terms.
Every traversal comes in two halves, one for terms and one for the arguments of an operation;
`Term.induct` is the induction that goes with them.
-/
namespace Relational

universe u

/-- A first-order term over payloads of one type. -/
inductive Term (A : Type u) where
  /-- A variable, known by its index. -/
  | var (index : UInt64)
  /-- A payload that unification only compares. -/
  | atom (payload : A)
  /-- A symbol applied to arguments, in order. -/
  | op (symbol : String) (arguments : List (Term A))

namespace Term

variable {A : Type u}

instance : Inhabited (Term A) := ⟨.var 0⟩

/-- A property of terms holds of all of them if it holds of variables and atoms, and of an
operation whenever it holds of its arguments. -/
theorem induct {motive : Term A → Prop} (var : ∀ index, motive (.var index))
    (atom : ∀ payload, motive (.atom payload))
    (op : ∀ symbol arguments, (∀ argument ∈ arguments, motive argument) →
      motive (.op symbol arguments)) (term : Term A) : motive term :=
  @Term.rec A motive (fun arguments => ∀ argument ∈ arguments, motive argument)
    var atom (fun symbol arguments each => op symbol arguments each)
    (fun _ member => nomatch member)
    (fun _ _ first rest argument member => by
      cases member with
      | head => exact first
      | tail _ later => exact rest argument later)
    term

/-- The index of a variable. -/
def index? : Term A → Option UInt64
  | .var index => some index
  | .atom _ => none
  | .op .. => none

/-- Whether a term is a variable. -/
def isVar (term : Term A) : Bool := term.index?.isSome

mutual

/-- Equality of terms by equality of payloads. -/
def beq [BEq A] : Term A → Term A → Bool
  | .var left, .var right => left == right
  | .atom left, .atom right => left == right
  | .op left lefts, .op right rights => left == right && beqAll lefts rights
  | _, _ => false

/-- Equality of argument lists by equality of payloads. -/
def beqAll [BEq A] : List (Term A) → List (Term A) → Bool
  | [], [] => true
  | left :: lefts, right :: rights => beq left right && beqAll lefts rights
  | _, _ => false

end

instance [BEq A] : BEq (Term A) := ⟨beq⟩

mutual

/-- Replaces every variable of a term, or fails where the replacement of one of them fails. -/
def bind? (replace : UInt64 → Option (Term A)) : Term A → Option (Term A)
  | .var index => replace index
  | .atom payload => some (.atom payload)
  | .op symbol arguments => (bindAll? replace arguments).map (.op symbol)

/-- Replaces every variable of some arguments, or fails where one replacement fails. -/
def bindAll? (replace : UInt64 → Option (Term A)) : List (Term A) → Option (List (Term A))
  | [] => some []
  | argument :: arguments =>
    match bind? replace argument with
    | none => none
    | some argument => (bindAll? replace arguments).map (argument :: ·)

end

mutual

/-- Whether a test holds of some variable of a term. The variables are tried from right to left;
the answer is unknown if the test fails on one before it holds of one. -/
def anyVar? (test : UInt64 → Option Bool) : Term A → Option Bool
  | .var index => test index
  | .atom _ => some false
  | .op _ arguments => anyVarOf? test arguments

/-- Whether a test holds of some variable of some arguments. -/
def anyVarOf? (test : UInt64 → Option Bool) : List (Term A) → Option Bool
  | [] => some false
  | argument :: arguments =>
    match anyVarOf? test arguments with
    | some false => anyVar? test argument
    | decided => decided

end

mutual

/-- Replaces every variable of a term. -/
def bind (replace : UInt64 → Term A) : Term A → Term A
  | .var index => replace index
  | .atom payload => .atom payload
  | .op symbol arguments => .op symbol (bindAll replace arguments)

/-- Replaces every variable of some arguments. -/
def bindAll (replace : UInt64 → Term A) : List (Term A) → List (Term A)
  | [] => []
  | argument :: arguments => bind replace argument :: bindAll replace arguments

end

mutual

/-- The variables of a term from left to right, as often as they appear. -/
def vars : Term A → List UInt64
  | .var index => [index]
  | .atom _ => []
  | .op _ arguments => varsOf arguments

/-- The variables of some arguments from left to right. -/
def varsOf : List (Term A) → List UInt64
  | [] => []
  | argument :: arguments => vars argument ++ varsOf arguments

end

/-- Argument lists are replaced argument by argument. -/
theorem bindAll_eq_map (replace : UInt64 → Term A) (arguments : List (Term A)) :
    bindAll replace arguments = arguments.map (bind replace) := by
  induction arguments with
  | nil => rfl
  | cons argument arguments ih => simp [bindAll, ih]

/-- The variables of arguments are those of the arguments one after another. -/
theorem varsOf_eq_flatMap (arguments : List (Term A)) :
    varsOf arguments = arguments.flatMap vars := by
  induction arguments with
  | nil => rfl
  | cons argument arguments ih => simp [varsOf, ih]

/-- Every argument is smaller than the operation. -/
theorem sizeOf_lt_of_mem {symbol : String} {arguments : List (Term A)} {argument : Term A}
    (member : argument ∈ arguments) : sizeOf argument < sizeOf (Term.op symbol arguments) := by
  have := List.sizeOf_lt_of_mem member
  simp only [op.sizeOf_spec]
  omega

/-- Equality of terms is that of their payloads, carried through. -/
theorem beq_iff_eq [BEq A] [LawfulBEq A] (left right : Term A) :
    left.beq right = true ↔ left = right := by
  induction left using induct generalizing right with
  | var index => cases right <;> simp [beq]
  | atom payload => cases right <;> simp [beq]
  | op symbol lefts each =>
    cases right with
    | var => simp [beq]
    | atom => simp [beq]
    | op other rights =>
      have all : beqAll lefts rights = true ↔ lefts = rights := by
        induction lefts generalizing rights with
        | nil => cases rights <;> simp [beqAll]
        | cons left lefts ih =>
          cases rights with
          | nil => simp [beqAll]
          | cons right rights =>
            simp [beqAll, each left (List.mem_cons_self ..),
              ih (fun argument member => each argument (List.mem_cons_of_mem _ member))]
      simp [beq, all]

instance [BEq A] [LawfulBEq A] : LawfulBEq (Term A) where
  eq_of_beq same := (beq_iff_eq _ _).mp same
  rfl := (beq_iff_eq _ _).mpr rfl

end Term

/-!
## Payloads

The payload of an atom is a signed 64-bit integer, a text or a truth value. Payloads of
different kinds are never equal.
-/

/-- What an atom carries. -/
inductive Payload where
  /-- A signed 64-bit integer. -/
  | integer (value : Int64)
  /-- A text. -/
  | text (value : String)
  /-- A truth value. -/
  | flag (value : Bool)
  deriving DecidableEq

namespace Payload

instance : Inhabited Payload := ⟨.flag false⟩

/-- The word for a truth value. -/
def flagText (value : Bool) : String := if value then "true" else "false"

/-- The payload as it is shown to a reader: a text stands for itself. -/
def display : Payload → String
  | integer value => toString value.toInt
  | text value => value
  | flag value => flagText value

end Payload

end Relational
