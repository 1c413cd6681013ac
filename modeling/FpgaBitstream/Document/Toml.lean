import FpgaBitstream.Document.Toml.Numbers
import FpgaBitstream.Document.Toml.Strings
import FpgaBitstream.Document.Toml.Tables

/-!
# TOML

Reading of TOML 1.0 texts. Lines are read in order into a `Toml.Builder`. `Toml.parse?` gives the
value of a text; it fails for every text that breaks a rule of the format.
-/

namespace FpgaBitstream.Toml

/-- The points that TOML leaves to a reader: further elements of a list that stands for a record are
passed over, and an empty list or table stands for an empty payload. -/
def rules : Document.DecodeRules where
  allowsExtraElements := true
  isUnit
    | .list elements => elements.isEmpty
    | .table members => members.isEmpty
    | _ => false

/-- The number of levels to which lists, inline tables and dotted keys may nest, and one more. -/
def nestingLimit : Nat := 80

/-- Reads one part of a key. -/
def keyPart? : List Char → Option (String × List Char)
  | '"' :: rest => line? '"' (rest.length + 1) [] rest
  | '\'' :: rest => line? '\'' (rest.length + 1) [] rest
  | text =>
    let bare := text.takeWhile isBareKeyChar
    if bare.isEmpty then none else some (String.ofList bare, text.dropWhile isBareKeyChar)

/-- Reads the parts of a key with the blanks around them, behind `done`, which is in reverse. -/
def keyParts? : Nat → List String → List Char → Option (List String × List Char)
  | 0, _, _ => none
  | fuel + 1, done, text =>
    (keyPart? (skipSpaces text)).bind fun (part, rest) =>
      match skipSpaces rest with
      | '.' :: rest => keyParts? fuel (part :: done) rest
      | rest => some ((part :: done).reverse, rest)

/-- Reads a key with the blanks around it. -/
def key? (text : List Char) : Option (List String × List Char) :=
  keyParts? (nestingLimit - 1) [] text

/-- Reads the elements of a list up to its end, behind `done`, which is in reverse. -/
def elements? (value? : List Char → Option (Document × List Char)) :
    Nat → List Document → List Char → Option (Document × List Char)
  | 0, _, _ => none
  | fuel + 1, done, text =>
    match skipLines false text with
    | ']' :: rest => some (.list done.reverse, rest)
    | text => do
      let (element, rest) ← value? text
      match skipLines false rest with
      | ',' :: rest => elements? value? fuel (element :: done) rest
      | ']' :: rest => return (.list (element :: done).reverse, rest)
      | _ => none

/-- Reads the members of an inline table up to its end. -/
def members? (value? : List Char → Option (Document × List Char)) :
    Nat → Entries → List Char → Option (Document × List Char)
  | 0, _, _ => none
  | fuel + 1, entries, text => do
    let (path, rest) ← key? text
    let key ← path.getLast?
    let (value, rest) ← value? (skipSpaces (← expect? '=' rest))
    let entries ← entries.put? key value path.dropLast
    match skipSpaces rest with
    | ',' :: rest => members? value? fuel entries rest
    | '\x7d' :: rest => return (.table (membersOf entries), rest)
    | _ => none

/-- Reads a value that may hold lists and inline tables to one level less than `depth`. -/
def value? : (depth : Nat) → List Char → Option (Document × List Char)
  | 0, _ => none
  | depth + 1, '[' :: rest =>
    if depth = 0 then none else elements? (value? depth) (rest.length + 1) [] rest
  | depth + 1, '\x7b' :: rest =>
    if depth = 0 then none
    else match skipSpaces rest with
      | '\x7d' :: rest => some (.table [], rest)
      | rest => members? (value? depth) (rest.length + 1) [] rest
  | _ + 1, '"' :: rest => (string? '"' rest).map fun (text, rest) => (.string text, rest)
  | _ + 1, '\'' :: rest => (string? '\'' rest).map fun (text, rest) => (.string text, rest)
  | _ + 1, text => scalar? text

/-- Reads one line: a header, or a key and its value. -/
def line (b : Builder) : List Char → Option (Builder × List Char)
  | '[' :: '[' :: rest => do
    let (path, rest) ← key? rest
    let rest ← lineEnd? (← expect? ']' (← expect? ']' rest))
    return (← b.beginElement? path, rest)
  | '[' :: rest => do
    let (path, rest) ← key? rest
    let rest ← lineEnd? (← expect? ']' rest)
    return (← b.beginTable? path, rest)
  | text => do
    let (path, rest) ← key? text
    let (value, rest) ← value? nestingLimit (skipSpaces (← expect? '=' rest))
    return (← b.put? path value, ← lineEnd? rest)

/-- Reads all lines. -/
def lines? : Nat → Builder → List Char → Option Builder
  | 0, _, _ => none
  | fuel + 1, b, text =>
    match skipSpaces text with
    | [] => some b
    | '#' :: rest => (lineEnd? ('#' :: rest)).bind (lines? fuel b)
    | '\n' :: rest => lines? fuel b rest
    | '\r' :: rest => (newline? ('\r' :: rest)).bind (lines? fuel b)
    | text => (line b text).bind fun (b, rest) => lines? fuel b rest

/-- The table that a text spells. A byte order mark in front is passed over. -/
def parse? (text : List Char) : Option Document := do
  let text := match text with
    | '\uFEFF' :: rest => rest
    | _ => text
  let b ← lines? (text.length + 1) {} text
  return .table (membersOf (← b.finish?))

end FpgaBitstream.Toml
