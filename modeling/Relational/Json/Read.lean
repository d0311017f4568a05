import Relational.IntMap.Basic
import Relational.Term

/-!
# Reading JSON

A reader takes a value from the front of a text and returns what follows it, or refuses the
text. Readers are strict: numbers are whole and have no superfluous zeros, names come once,
and nothing but blanks may follow the value. Members of unknown name are passed over, and of
those only the grammar is checked, at any depth and with any escapes. What is read is nested
`depthLimit` containers deep at most.
-/
namespace Relational.Json

/-- Takes a value from the front of a text. -/
abbrev Reader (α : Type) := List Char → Option (α × List Char)

/-- How deep containers may be nested. -/
def depthLimit : Nat := 127

/-- The characters that may stand between any two parts. -/
def isBlank (char : Char) : Bool :=
  char == ' ' || char == '\t' || char == '\n' || char == '\r'

/-- The text after its leading blanks. -/
def skipBlanks (input : List Char) : List Char := input.dropWhile isBlank

/-- The text after a given character and blanks before it. -/
def expect? (char : Char) (input : List Char) : Option (List Char) :=
  match skipBlanks input with
  | first :: rest => if first = char then some rest else none
  | [] => none

/-- The value of a hexadecimal digit. -/
def hexValue? (char : Char) : Option Nat :=
  if '0' ≤ char ∧ char ≤ '9' then some (char.toNat - '0'.toNat)
  else if 'a' ≤ char ∧ char ≤ 'f' then some (char.toNat - 'a'.toNat + 10)
  else if 'A' ≤ char ∧ char ≤ 'F' then some (char.toNat - 'A'.toNat + 10)
  else none

/-- The value of four hexadecimal digits. -/
def hexUnit? (first second third fourth : Char) : Option Nat := do
  let first ← hexValue? first
  let second ← hexValue? second
  let third ← hexValue? third
  let fourth ← hexValue? fourth
  some (((first * 16 + second) * 16 + third) * 16 + fourth)

/-- The character of a short escape. -/
def shortEscape? (char : Char) : Option Char :=
  match char with
  | '"' => some '"'
  | '\\' => some '\\'
  | '/' => some '/'
  | 'b' => some '\x08'
  | 'f' => some '\x0c'
  | 'n' => some '\n'
  | 'r' => some '\r'
  | 't' => some '\t'
  | _ => none

/-- The rest of a text in quotes, after its opening quote. A code unit of a surrogate pair
stands with its partner only. -/
def textBody : Reader (List Char)
  | [] => none
  | '"' :: rest => some ([], rest)
  | '\\' :: 'u' :: first :: second :: third :: fourth :: rest =>
    match hexUnit? first second third fourth with
    | none => none
    | some unit =>
      if 0xd800 ≤ unit ∧ unit < 0xdc00 then
        match rest with
        | '\\' :: 'u' :: fifth :: sixth :: seventh :: eighth :: rest =>
          match hexUnit? fifth sixth seventh eighth with
          | none => none
          | some low =>
            if 0xdc00 ≤ low ∧ low < 0xe000 then
              (textBody rest).map fun read =>
                (Char.ofNat (0x10000 + (unit - 0xd800) * 0x400 + (low - 0xdc00)) :: read.1, read.2)
            else none
        | _ => none
      else if 0xdc00 ≤ unit ∧ unit < 0xe000 then none
      else (textBody rest).map fun read => (Char.ofNat unit :: read.1, read.2)
  | '\\' :: char :: rest =>
    match shortEscape? char with
    | none => none
    | some char => (textBody rest).map fun read => (char :: read.1, read.2)
  | char :: rest =>
    if char.toNat < 0x20 ∨ char = '\\' then none
    else (textBody rest).map fun read => (char :: read.1, read.2)

/-- A text in quotes. -/
def readText : Reader String := fun input => do
  let rest ← expect? '"' input
  let (body, rest) ← textBody rest
  some (String.ofList body, rest)

/-- Decimal digits, at least one and without superfluous zeros in front. -/
def readNatural : Reader Nat := fun input =>
  match input.takeWhile Char.isDigit with
  | [] => none
  | '0' :: _ :: _ => none
  | digits => some (Nat.ofDigitChars 10 digits 0, input.dropWhile Char.isDigit)

/-- Whether a text goes on with a fraction or an exponent. -/
def startsFraction : List Char → Bool
  | [] => false
  | char :: _ => char == '.' || char == 'e' || char == 'E'

/-- A whole number. A negative zero is none. -/
def readInteger : Reader Int := fun input =>
  let (negative, digits) :=
    match skipBlanks input with
    | '-' :: rest => (true, rest)
    | rest => (false, rest)
  match readNatural digits with
  | none => none
  | some (value, rest) =>
    if startsFraction rest || (negative && value == 0) then none
    else some (if negative then -(value : Int) else value, rest)

/-- A word. -/
def readWord : Reader UInt64 := fun input => do
  let (value, rest) ← readInteger input
  if 0 ≤ value ∧ value.toNat < UInt64.size then some (UInt64.ofNat value.toNat, rest) else none

/-- The text after a given beginning. -/
def afterBeginning? : List Char → List Char → Option (List Char)
  | [], input => some input
  | _ :: _, [] => none
  | char :: beginning, first :: input =>
    if char = first then afterBeginning? beginning input else none

/-- A payload: an integer of 64 bits, a text or a truth value. -/
def readPayload : Reader Payload := fun input =>
  match skipBlanks input with
  | '"' :: rest => (readText ('"' :: rest)).map fun read => (.text read.1, read.2)
  | 't' :: rest => (afterBeginning? ['r', 'u', 'e'] rest).map fun rest => (.flag true, rest)
  | 'f' :: rest => (afterBeginning? ['a', 'l', 's', 'e'] rest).map fun rest => (.flag false, rest)
  | rest => do
    let (value, rest) ← readInteger rest
    if Int64.minValue.toInt ≤ value ∧ value ≤ Int64.maxValue.toInt then
      some (.integer (Int64.ofInt value), rest)
    else none

/-- Items with commas between them up to a closing character; `room` bounds their number. -/
def readItems {α : Type} (item : Reader α) (closing : Char) : Nat → Reader (List α)
  | 0, _ => none
  | room + 1, input => do
    let (first, rest) ← item input
    match skipBlanks rest with
    | [] => none
    | char :: rest =>
      if char = closing then some ([first], rest)
      else if char = ',' then do
        let (others, rest) ← readItems item closing room rest
        some (first :: others, rest)
      else none

/-- Any number of items between an opening and a closing character. -/
def readBetween {α : Type} (opening closing : Char) (item : Reader α) :
    Reader (List α) := fun input => do
  let rest ← expect? opening input
  match expect? closing rest with
  | some rest => some ([], rest)
  | none => readItems item closing rest.length rest

/-- An array of items. -/
def readArray {α : Type} (item : Reader α) : Reader (List α) := readBetween '[' ']' item

/-- A member of an object: a name, a colon, and a value that may depend on the name. -/
def readMember {κ α : Type} (name : Reader κ) (value : κ → Reader α) : Reader α :=
    fun input => do
  let (found, rest) ← name input
  let rest ← expect? ':' rest
  value found rest

/-- An object of members. -/
def readObject {α : Type} (member : Reader α) : Reader (List α) :=
  readBetween '\x7b' '\x7d' member

/-- The text after a text in quotes whose opening quote is past. Any four digits may follow
the escape for a code unit. -/
def skipTextBody : List Char → Option (List Char)
  | [] => none
  | '"' :: rest => some rest
  | '\\' :: 'u' :: first :: second :: third :: fourth :: rest =>
    match hexUnit? first second third fourth with
    | none => none
    | some _ => skipTextBody rest
  | '\\' :: char :: rest =>
    match shortEscape? char with
    | none => none
    | some _ => skipTextBody rest
  | char :: rest => if char.toNat < 0x20 ∨ char = '\\' then none else skipTextBody rest

/-- The text after one or more digits. -/
def skipDigits? (input : List Char) : Option (List Char) :=
  match input with
  | char :: rest => if char.isDigit then some (rest.dropWhile Char.isDigit) else none
  | [] => none

/-- The text after an exponent, if there is one. -/
def skipExponent? (input : List Char) : Option (List Char) :=
  match input with
  | char :: rest =>
    if char = 'e' ∨ char = 'E' then
      match rest with
      | sign :: digits => if sign = '+' ∨ sign = '-' then skipDigits? digits else skipDigits? rest
      | [] => none
    else some input
  | [] => some []

/-- The text after a number without its sign. -/
def skipNumber? (input : List Char) : Option (List Char) := do
  let (_, rest) ← readNatural input
  match rest with
  | '.' :: rest => skipExponent? (← skipDigits? rest)
  | rest => skipExponent? rest

/-- Passes over a value; `room` bounds how deep it is nested. -/
def skipValue : Nat → Reader Unit
  | 0, _ => none
  | room + 1, input =>
    match skipBlanks input with
    | '"' :: rest => (skipTextBody rest).map ((), ·)
    | '[' :: rest => (readArray (skipValue room) ('[' :: rest)).map fun read => ((), read.2)
    | '\x7b' :: rest =>
      let name : Reader Unit := fun input => do
        let rest ← expect? '"' input
        (skipTextBody rest).map ((), ·)
      (readObject (readMember name fun _ => skipValue room) ('\x7b' :: rest)).map
        fun read => ((), read.2)
    | '-' :: rest => (skipNumber? rest).map ((), ·)
    | 'n' :: rest => (afterBeginning? ['u', 'l', 'l'] rest).map ((), ·)
    | 't' :: rest => (afterBeginning? ['r', 'u', 'e'] rest).map ((), ·)
    | 'f' :: rest => (afterBeginning? ['a', 'l', 's', 'e'] rest).map ((), ·)
    | rest => (skipNumber? rest).map ((), ·)

/-- Passes over any value. -/
def skipAny : Reader Unit := fun input => skipValue input.length input

/-- The one item of a list. -/
def single? {α : Type} : List α → Option α
  | [item] => some item
  | _ => none

/-- Two named parts: an object in which each of the two names comes once, or an array of the
two parts. Of members of other names only the grammar is checked. -/
def readPair {α β : Type} (firstName secondName : String) (first : Reader α)
    (second : Reader β) : Reader (α × β) := fun input =>
  match skipBlanks input with
  | '[' :: rest => do
    let (left, rest) ← first rest
    let rest ← expect? ',' rest
    let (right, rest) ← second rest
    let rest ← expect? ']' rest
    some ((left, right), rest)
  | rest => do
    let part (name : String) : Reader (Option α × Option β) := fun input =>
      if name = firstName then (first input).map fun read => ((some read.1, none), read.2)
      else if name = secondName then (second input).map fun read => ((none, some read.1), read.2)
      else (skipAny input).map fun read => ((none, none), read.2)
    let (parts, rest) ← readObject (readMember readText part) rest
    let left ← single? (parts.filterMap (·.1))
    let right ← single? (parts.filterMap (·.2))
    some ((left, right), rest)

/-- A term nested at most so many containers deep, given how payloads are read. -/
def readTerm {A : Type} (payload : Reader A) : Nat → Reader (Term A)
  | 0, _ => none
  | depth + 1, input => do
    let rest ← expect? '\x7b' input
    let (kind, rest) ← readText rest
    let rest ← expect? ':' rest
    let (term, rest) ←
      if kind = "Variable" then
        (readWord rest).map fun read => (Term.var read.1, read.2)
      else if kind = "Atom" then
        (payload rest).map fun read => (Term.atom read.1, read.2)
      else if kind = "Operation" then
        match depth with
        | depth + 2 =>
          (readPair "symbol" "subterms" readText (readArray (readTerm payload depth)) rest).map
            fun read => (Term.op read.1.1 read.1.2, read.2)
        | _ => none
      else none
    let rest ← expect? '\x7d' rest
    some (term, rest)

/-- A key: a word in quotes, digit by digit. -/
def readKey : Reader UInt64 := fun input => do
  let rest ← expect? '"' input
  let (value, rest) ← readNatural rest
  match rest with
  | '"' :: rest => if value < UInt64.size then some (UInt64.ofNat value, rest) else none
  | _ => none

/-- A map, given how values are read; of several entries of a key the last one counts. -/
def readIntMap {V : Type} (value : Reader V) : Reader (IntMap V) := fun input => do
  let entry : Reader (UInt64 × V) := fun input => do
    let (key, rest) ← readKey input
    let rest ← expect? ':' rest
    let (value, rest) ← value rest
    some ((key, value), rest)
  let (entries, rest) ← readObject entry input
  some (IntMap.ofList entries, rest)

/-- The value that a whole text holds. -/
def whole? {α : Type} (reader : Reader α) (input : String) : Option α :=
  match reader input.toList with
  | some (value, rest) => if rest.all isBlank then some value else none
  | none => none

end Relational.Json
