import Relational.Json.Read
import Relational.State

/-!
# Terms, maps and states in JSON

Terms, maps and states have one form in JSON. Here it is said how they are written, how states
are read, and what it takes for reading to give back what was written.
-/
namespace Relational.Json

/-!
## Writing JSON

Values are written without blanks. A term is an object whose one member is named for the kind
of the term; a map is an object whose names are the keys in decimal, in the order of
iteration. In a text quotes, backslashes and the characters below the blank are escaped, with
short escapes where there are some.

A writer puts a value in front of what follows it, so writing takes time in proportion to the
text, however deep the value is nested.
-/

universe u

/-- Puts the text of a value in front of what follows it. -/
abbrev Writer := List Char → List Char

/-- A number in decimal. -/
def natural (value : Nat) : Writer := fun rest => Nat.toDigits 10 value ++ rest

/-- An integer in decimal, with a sign if it is negative. -/
def integer (value : Int) : Writer := fun rest =>
  if value < 0 then '-' :: natural value.natAbs rest else natural value.natAbs rest

/-- The digit of a number below sixteen. -/
def hexDigit (value : Nat) : Char := Nat.digitChar value

/-- A character as it stands in a text. -/
def escape (char : Char) : List Char :=
  if char = '"' then ['\\', '"']
  else if char = '\\' then ['\\', '\\']
  else if char = '\x08' then ['\\', 'b']
  else if char = '\x0c' then ['\\', 'f']
  else if char = '\n' then ['\\', 'n']
  else if char = '\r' then ['\\', 'r']
  else if char = '\t' then ['\\', 't']
  else if char.toNat < 0x20 then
    ['\\', 'u', '0', '0', hexDigit (char.toNat / 16), hexDigit (char.toNat % 16)]
  else [char]

/-- A text in quotes. -/
def text (content : String) : Writer := fun rest =>
  '"' :: content.toList.foldr (fun char rest => escape char ++ rest) ('"' :: rest)

/-- Items with commas between them. -/
def commas : List Writer → Writer
  | [], rest => rest
  | [item], rest => item rest
  | item :: items, rest => item (',' :: commas items rest)

/-- An array of items. -/
def array (items : List Writer) : Writer := fun rest => '[' :: commas items (']' :: rest)

/-- An object of members. -/
def object (members : List Writer) : Writer := fun rest =>
  '\x7b' :: commas members ('\x7d' :: rest)

/-- A member of an object. -/
def member (name : String) (value : Writer) : Writer := fun rest => text name (':' :: value rest)

/-- A payload: an integer, a text or a truth value of its own. -/
def payload : Payload → Writer
  | .integer value => integer value.toInt
  | .text value => text value
  | .flag value => fun rest => (Payload.flagText value).toList ++ rest

mutual

/-- A term, given how payloads are written. -/
def term {A : Type u} (payload : A → Writer) : Term A → Writer
  | .var index => object [member "Variable" (natural index.toNat)]
  | .atom value => object [member "Atom" (payload value)]
  | .op symbol arguments =>
    object [member "Operation"
      (object [member "symbol" (text symbol), member "subterms" (array (terms payload arguments))])]

/-- Arguments, given how payloads are written. -/
def terms {A : Type u} (payload : A → Writer) : List (Term A) → List Writer
  | [] => []
  | argument :: arguments => term payload argument :: terms payload arguments

end

/-- A map, given how values are written. -/
def intMap {V : Type u} (value : V → Writer) (map : IntMap V) : Writer :=
  object (map.toList.map fun entry rest =>
    '"' :: natural entry.1.toNat ('"' :: ':' :: value entry.2 rest))

/-- The text of a value. -/
def write (writer : Writer) : String := String.ofList (writer [])

/-!
## States

A state is an object of its bindings and the number of variables handed out. It is also read
from an array of these two in order.
-/

section States

variable {A : Type}

/-- A state, given how payloads are written. -/
def state (payload : A → Writer) (state : State A) : Writer :=
  object [member "substitution" (intMap (term payload) state.substitution),
    member "fresh_count" (natural state.freshCount.toNat)]

/-- A state, given how payloads are read. Its bindings stand inside two containers, which count
towards the limit on nesting. -/
def readState (payload : Reader A) : Reader (State A) := fun input =>
  let bindings := readIntMap (readTerm payload (depthLimit - 2))
  (readPair "substitution" "fresh_count" bindings readWord input).map fun read =>
    (⟨read.1.1, read.1.2⟩, read.2)

end States

/-!
## Writing and reading back

How deep containers are nested can be seen in a text without reading it: it is how many brackets
are open at a time, where brackets in quotes do not count. Texts that are nested no deeper than
readers go are what writing and reading back is about.
-/

/-- How many brackets are open at a time from here on, where so many are open and the text may stand
inside quotes. -/
def nestingFrom : (level : Nat) → (quoted : Bool) → List Char → Nat
  | level, _, [] => level
  | level, true, '\\' :: _ :: rest => nestingFrom level true rest
  | level, true, char :: rest => nestingFrom level (char != '"') rest
  | level, false, char :: rest =>
    if char = '"' then nestingFrom level true rest
    else if char = '[' ∨ char = '\x7b' then nestingFrom (level + 1) false rest
    else if char = ']' ∨ char = '\x7d' then max level (nestingFrom (level - 1) false rest)
    else nestingFrom level false rest

/-- How deep containers are nested in a text. -/
def nesting (text : String) : Nat := nestingFrom 0 false text.toList

example : nesting "[[1],\"[[[\",[]]" = 2 := by decide

/-- The values of one kind are written and read back without loss. -/
structure RoundTrips {α : Type} (writer : α → Writer) (reader : Reader α) : Prop where
  /-- A text that is not nested too deep is read back as the value that was written. -/
  back : ∀ value, nesting (write (writer value)) ≤ depthLimit →
    whole? reader (write (writer value)) = some value
  /-- Different values have different texts. -/
  apart : ∀ one other, nesting (write (writer one)) ≤ depthLimit →
    write (writer one) = write (writer other) → one = other
  /-- Whatever text a value was read from, written anew the value is read back. -/
  again : ∀ text value, whole? reader text = some value →
    whole? reader (write (writer value)) = some value

end Relational.Json
