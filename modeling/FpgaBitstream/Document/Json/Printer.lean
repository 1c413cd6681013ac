import FpgaBitstream.Document
import FpgaBitstream.Text.Hex

/-!
# JSON writing

The JSON text of a document, compact or over several lines with two blanks for each level.
-/

namespace FpgaBitstream.Json

/-- The characters that a character becomes inside a string. -/
def escaped (c : Char) : String :=
  if c == '"' then "\\\""
  else if c == '\\' then "\\\\"
  else if c == '\n' then "\\n"
  else if c == '\r' then "\\r"
  else if c == '\t' then "\\t"
  else if c == '\x08' then "\\b"
  else if c == '\x0c' then "\\f"
  else if c.toNat < 0x20 then "\\u" ++ Hex.padded 4 c.toNat
  else String.singleton c

/-- A string with its quotes. -/
def quoted (text : String) : String :=
  (text.toList.foldl (fun out c => out ++ escaped c) "\"") ++ "\""

/-- A value without parts. A text that denotes nothing, and a date-time, have no JSON form and are
written as null. -/
def scalarText : Document → String
  | .bool value => if value then "true" else "false"
  | .integer value => toString value
  | .real literal => literal
  | .text (some value) => quoted value
  | _ => "null"

/-- A key with its quotes. -/
def keyText (key : Option String) : String := quoted (key.getD "")

mutual

/-- Writes a value without blanks behind `out`. -/
def compactOnto (out : String) : Document → String
  | .list [] => out ++ "[]"
  | .list (first :: rest) => compactElements (compactOnto (out ++ "[") first) rest ++ "]"
  | .table [] => out ++ "\x7b\x7d"
  | .table ((key, first) :: rest) =>
    compactMembers (compactOnto (out ++ "\x7b" ++ keyText key ++ ":") first) rest ++ "\x7d"
  | value => out ++ scalarText value

/-- Writes the further elements of a list. -/
def compactElements (out : String) : List Document → String
  | [] => out
  | value :: rest => compactElements (compactOnto (out ++ ",") value) rest

/-- Writes the further members of a table. -/
def compactMembers (out : String) : List (Option String × Document) → String
  | [] => out
  | (key, value) :: rest =>
    compactMembers (compactOnto (out ++ "," ++ keyText key ++ ":") value) rest

end

/-- A value without blanks. -/
def compact (value : Document) : String := compactOnto "" value

/-- A new line at a level of nesting. -/
def newLine (level : Nat) : String := "\n" ++ String.ofList (List.replicate (2 * level) ' ')

mutual

/-- Writes a value over several lines behind `out`. -/
def prettyOnto (level : Nat) (out : String) : Document → String
  | .list [] => out ++ "[]"
  | .list (first :: rest) =>
    prettyElements (level + 1) (prettyOnto (level + 1) (out ++ "[" ++ newLine (level + 1)) first)
      rest ++ newLine level ++ "]"
  | .table [] => out ++ "\x7b\x7d"
  | .table ((key, first) :: rest) =>
    prettyMembers (level + 1)
      (prettyOnto (level + 1) (out ++ "\x7b" ++ newLine (level + 1) ++ keyText key ++ ": ") first)
      rest ++ newLine level ++ "\x7d"
  | value => out ++ scalarText value

/-- Writes the further elements of a list. -/
def prettyElements (level : Nat) (out : String) : List Document → String
  | [] => out
  | value :: rest =>
    prettyElements level (prettyOnto level (out ++ "," ++ newLine level) value) rest

/-- Writes the further members of a table. -/
def prettyMembers (level : Nat) (out : String) : List (Option String × Document) → String
  | [] => out
  | (key, value) :: rest =>
    prettyMembers level
      (prettyOnto level (out ++ "," ++ newLine level ++ keyText key ++ ": ") value) rest

end

/-- A value over several lines, two blanks for each level. -/
def pretty (value : Document) : String := prettyOnto 0 "" value

end FpgaBitstream.Json
