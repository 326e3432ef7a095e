import OsdLatency.Binary64.FixedPlaces
import OsdLatency.Binary64.Shortest

/-!
# JSON documents

Reports for other programs are JSON documents, written with one value a line and two spaces for each
level.

## Main definitions

* `Json` — a document
* `Json.number` — the text of a double
* `Json.render` — the text of a document
-/

namespace OsdLatency

open Binary64

/-- A JSON document. The members of an object keep their order. -/
inductive Json
  | double (value : Float)
  | count (value : Nat)
  | text (value : String)
  | list (values : List Json)
  | object (members : List (String × Json))

namespace Json

/-- The shortest decimal of a double. It is written positionally if its first digit stands from the
fifth place behind the point to the sixteenth before it, and with an exponent otherwise. A double
between two shortest decimals is shown by the even one. JSON has no text for what is not finite. -/
def number (x : Float) : String :=
  match x.toModel.unpack with
  | .notANumber => "null"
  | .infinity _ => "null"
  | .zero sign => String.ofList (signText sign ++ ['0', '.', '0'])
  | .finite sign m e _ =>
    let decimal := shortest .even m e
    let digits :=
      if -5 ≤ decimal.leading ∧ decimal.leading ≤ 15 then decimal.positional else decimal.scientific
    String.ofList (signText sign ++ digits)

/-- A character inside a quoted text. Quotes, backslashes and controls are escaped. -/
def escaped (c : Char) : List Char :=
  if c = '"' then ['\\', '"']
  else if c = '\\' then ['\\', '\\']
  else if c = '\n' then ['\\', 'n']
  else if c = '\r' then ['\\', 'r']
  else if c = '\t' then ['\\', 't']
  else if c = '\x08' then ['\\', 'b']
  else if c = '\x0c' then ['\\', 'f']
  else if c.toNat < 0x20 then
    ['\\', 'u'] ++ List.leftpad 4 '0' (Nat.toDigits 16 c.toNat)
  else [c]

/-- A text in quotes. -/
def quoted (text : String) : String :=
  String.ofList ('"' :: text.toList.flatMap escaped ++ ['"'])

/-- A line end and the spaces of a level. -/
def newLine (level : Nat) : String := String.ofList ('\n' :: List.replicate (2 * level) ' ')

mutual

/-- The text of a document that starts on a level. -/
def renderAt (level : Nat) : Json → String
  | double value => number value
  | count value => toString value
  | text value => quoted value
  | list [] => "[]"
  | list (value :: values) =>
    "[" ++ newLine (level + 1) ++ renderAt (level + 1) value ++ renderValues (level + 1) values
      ++ newLine level ++ "]"
  | object [] => "\x7b\x7d"
  | object ((name, value) :: members) =>
    "\x7b" ++ newLine (level + 1) ++ quoted name ++ ": " ++ renderAt (level + 1) value
      ++ renderMembers (level + 1) members ++ newLine level ++ "\x7d"

/-- The further values of a list. -/
def renderValues (level : Nat) : List Json → String
  | [] => ""
  | value :: values => "," ++ newLine level ++ renderAt level value ++ renderValues level values

/-- The further members of an object. -/
def renderMembers (level : Nat) : List (String × Json) → String
  | [] => ""
  | (name, value) :: members =>
    "," ++ newLine level ++ quoted name ++ ": " ++ renderAt level value
      ++ renderMembers level members

end

/-- The text of a document. -/
def render (document : Json) : String := renderAt 0 document

end Json

end OsdLatency
