/-!
# Structure texts

A structure text shows how a value is made up: names with parts in parentheses or braces,
lists in brackets, maps in braces. It is written on one line, or with every part on a line of
its own, four blanks further in than its whole and with a comma after it.
-/
namespace Relational

/-- The parts of a structure text. -/
inductive Layout where
  /-- A text that is never broken. -/
  | leaf (text : String)
  /-- A part with a label before it. -/
  | field (label : String) (part : Layout)
  /-- Parts between an opening and a closing text; `spaced` asks for a blank inside both. -/
  | group (opening closing : String) (spaced : Bool) (parts : List Layout)

namespace Layout

/-- A name with its parts in parentheses. -/
def tuple (name : String) (parts : List Layout) : Layout :=
  group (name ++ "(") ")" false parts

/-- A name with its labelled parts in braces. -/
def record (name : String) (fields : List (String × Layout)) : Layout :=
  group (name ++ " \x7b") "\x7d" true (fields.map fun entry => field entry.1 entry.2)

/-- Parts in brackets. -/
def list (parts : List Layout) : Layout := group "[" "]" false parts

/-- Keys and values in braces. -/
def map (entries : List (String × Layout)) : Layout :=
  group "\x7b" "\x7d" false (entries.map fun entry => field entry.1 entry.2)

mutual

/-- A text followed by the parts on one line. -/
def flatAfter (before : String) : Layout → String
  | leaf text => before ++ text
  | field label part => flatAfter (before ++ label ++ ": ") part
  | group opening closing _ [] => before ++ opening ++ closing
  | group opening closing spaced (part :: parts) =>
    let margin := if spaced then " " else ""
    flatRestAfter (flatAfter (before ++ opening ++ margin) part) parts ++ margin ++ closing

/-- A text followed by further parts on one line, each after a comma and a blank. -/
def flatRestAfter (before : String) : List Layout → String
  | [] => before
  | part :: parts => flatRestAfter (flatAfter (before ++ ", ") part) parts

end

/-- The text on one line. -/
def flat (layout : Layout) : String := layout.flatAfter ""

/-- A text followed by the start of a line at a depth. -/
def marginAfter (before : String) (depth : Nat) : String := before.pushn ' ' (4 * depth)

mutual

/-- A text followed by a whole at a depth, with every part of it on a line of its own. -/
def indentedAfter (before : String) (depth : Nat) : Layout → String
  | leaf text => before ++ text
  | field label part => indentedAfter (before ++ label ++ ": ") depth part
  | group opening closing _ [] => before ++ opening ++ closing
  | group opening closing _ (part :: parts) =>
    let lines := linesAfter (before ++ opening ++ "\n") (depth + 1) (part :: parts)
    marginAfter lines depth ++ closing

/-- A text followed by parts at a depth, each on lines of its own. -/
def linesAfter (before : String) (depth : Nat) : List Layout → String
  | [] => before
  | part :: parts =>
    linesAfter (indentedAfter (marginAfter before depth) depth part ++ ",\n") depth parts

end

/-- The text with every part on a line of its own. -/
def indented (layout : Layout) : String := layout.indentedAfter "" 0

/-- The character as it stands in a quoted text: quotes, backslashes and control characters
are escaped. -/
def escape (char : Char) : String :=
  if char = '"' then "\\\""
  else if char = '\\' then "\\\\"
  else if char = '\n' then "\\n"
  else if char = '\r' then "\\r"
  else if char = '\t' then "\\t"
  else if char = '\x00' then "\\0"
  else if char.toNat < 0x20 ∨ (0x7f ≤ char.toNat ∧ char.toNat < 0xa0) then
    "\\u\x7b" ++ String.ofList (Nat.toDigits 16 char.toNat) ++ "\x7d"
  else char.toString

/-- A text in quotes. -/
def quoted (text : String) : String :=
  "\"" ++ String.join (text.toList.map escape) ++ "\""

/-- A quoted text as a part. -/
def text (content : String) : Layout := leaf (quoted content)

/-- A number as a part. -/
def number (value : Nat) : Layout := leaf (toString value)

end Layout

end Relational
