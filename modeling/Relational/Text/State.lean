import Relational.State

/-!
# Texts of terms, maps and states

Terms have a text for readers, and terms, maps and states have a text that shows how they are built.
-/
namespace Relational

/-!
## Texts of payloads, terms and maps

The display text of a term writes operations as calls and payloads as they are for a reader.
A field width reaches a payload at the top only: texts and truth values stand at its left end
and integers at its right end, and widths are counted in characters. The structure text names
every constructor.
-/

universe u

namespace Payload

/-- The display text filled up with blanks to a width. -/
def displayIn (width : Nat) (payload : Payload) : String :=
  let text := payload.display
  let blanks := "".pushn ' ' (width - text.length)
  match payload with
  | integer _ => blanks ++ text
  | .text _ => text ++ blanks
  | flag _ => text ++ blanks

/-- The structure text: texts are quoted. -/
def layout : Payload → Layout
  | integer value => .leaf (toString value.toInt)
  | text value => .text value
  | flag value => .leaf (flagText value)

end Payload

namespace Term

variable {A : Type u}

/-- The name of a variable. -/
def varName (index : UInt64) : String := "v" ++ toString index.toNat

mutual

/-- A text followed by the display text of a term, given that of payloads. -/
def displayAfter (payload : A → String) (before : String) : Term A → String
  | .var index => before ++ varName index
  | .atom value => before ++ payload value
  | .op symbol arguments => displayAllAfter payload (before ++ symbol ++ "(") arguments ++ ")"

/-- A text followed by the display texts of arguments, with commas between them. -/
def displayAllAfter (payload : A → String) (before : String) : List (Term A) → String
  | [] => before
  | [argument] => displayAfter payload before argument
  | argument :: arguments =>
    displayAllAfter payload (displayAfter payload before argument ++ ",") arguments

end

/-- The display text of a term, given that of payloads. -/
def display (payload : A → String) (term : Term A) : String := term.displayAfter payload ""

/-- The display text in a field of some width, which only an atom fills. -/
def displayIn (width : Nat) : Term Payload → String
  | .atom value => value.displayIn width
  | term => term.display Payload.display

mutual

/-- The structure text, given that of payloads. -/
def layout (payload : A → Layout) : Term A → Layout
  | .var index => .tuple "Variable" [.number index.toNat]
  | .atom value => .tuple "Atom" [payload value]
  | .op symbol arguments =>
    .tuple "Operation" [.record "Operation"
      [("symbol", .text symbol), ("subterms", .list (layoutAll payload arguments))]]

/-- The structure texts of arguments. -/
def layoutAll (payload : A → Layout) : List (Term A) → List Layout
  | [] => []
  | argument :: arguments => layout payload argument :: layoutAll payload arguments

end

end Term

namespace IntMap

variable {V : Type u}

/-- The structure text of a map, given that of values. -/
def layout (value : V → Layout) (map : IntMap V) : Layout :=
  .map (map.toList.map fun entry => (toString entry.1.toNat, value entry.2))

/-- The structure text of a position: how many entries are still to come. -/
def Iterator.describe (iterator : Iterator V) : String :=
  "Iter \x7b remaining: " ++ toString iterator.remaining ++ ", .. \x7d"

end IntMap

/-!
## States

A state is shown as a record of its bindings and the number of variables handed out.
-/

variable {A : Type}

/-- The structure text of a state, given that of payloads. -/
def State.layout (payload : A → Layout) (state : State A) : Layout :=
  .record "State"
    [("substitution", state.substitution.layout fun term => term.layout payload),
      ("fresh_count", .number state.freshCount.toNat)]

end Relational
