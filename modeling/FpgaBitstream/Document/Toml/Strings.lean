import FpgaBitstream.Text.Hex

/-!
# TOML strings

The characters of TOML texts, the blanks between tokens, and the four kinds of strings: on one line
or over several, with escapes between double quotes and without them between single quotes. Each
reader takes the text behind the first quote and gives the string with the text behind it.
-/

namespace FpgaBitstream.Toml

/-! ## Characters -/

/-- A blank within a line. -/
def isSpace (c : Char) : Bool := c == ' ' || c == '\t'

/-- A character of a comment or of a string on one line: no control character but the tab. -/
def isPlain (c : Char) : Bool := c == '\t' || (0x20 ≤ c.toNat && c.toNat != 0x7F)

/-- A character of a bare key. -/
def isBareKeyChar (c : Char) : Bool := c.isAlphanum || c == '_' || c == '-'

/-- The text behind blanks. -/
def skipSpaces (text : List Char) : List Char := text.dropWhile isSpace

/-- The text behind the end of a line. -/
def newline? : List Char → Option (List Char)
  | '\n' :: rest => some rest
  | '\r' :: '\n' :: rest => some rest
  | _ => none

/-- The text behind blanks, a comment and the end of the line or of the text. -/
def lineEnd? (text : List Char) : Option (List Char) :=
  let rest := match skipSpaces text with
    | '#' :: comment => comment.dropWhile isPlain
    | rest => rest
  if rest.isEmpty then some [] else newline? rest

/-- The text behind blanks, line ends and comments. -/
def skipLines (inComment : Bool) : List Char → List Char
  | [] => []
  | '\n' :: rest => skipLines false rest
  | '\r' :: '\n' :: rest => skipLines false rest
  | c :: rest =>
    if inComment then if isPlain c then skipLines true rest else c :: rest
    else if isSpace c then skipLines false rest
    else if c == '#' then skipLines true rest
    else c :: rest

/-- The text behind blanks and line ends. -/
def skipBreaks : List Char → List Char
  | [] => []
  | '\n' :: rest => skipBreaks rest
  | '\r' :: '\n' :: rest => skipBreaks rest
  | c :: rest => if isSpace c then skipBreaks rest else c :: rest

/-! ## Strings -/

/-- The character of a code point written in hexadecimal. -/
def codePoint? (digits : List Char) : Option Char :=
  (Hex.digitsFrom? 0 digits).bind fun code =>
    if code < 0xD800 ∨ (0xE000 ≤ code ∧ code < 0x110000) then some (Char.ofNat code) else none

/-- The character of an escape, and the text behind it. -/
def escape? : List Char → Option (Char × List Char)
  | 'b' :: rest => some ('\x08', rest)
  | 't' :: rest => some ('\t', rest)
  | 'n' :: rest => some ('\n', rest)
  | 'f' :: rest => some ('\x0c', rest)
  | 'r' :: rest => some ('\r', rest)
  | '"' :: rest => some ('"', rest)
  | '\\' :: rest => some ('\\', rest)
  | 'u' :: rest =>
    let digits := rest.take 4
    if digits.length = 4 then (codePoint? digits).map (·, rest.drop 4) else none
  | 'U' :: rest =>
    let digits := rest.take 8
    if digits.length = 8 then (codePoint? digits).map (·, rest.drop 8) else none
  | _ => none

/-- Reads a string on one line up to its closing quote, behind `done`, which is in reverse. Only
between double quotes does a backslash begin an escape. -/
def line? (quote : Char) : Nat → List Char → List Char → Option (String × List Char)
  | 0, _, _ => none
  | _ + 1, _, [] => none
  | fuel + 1, done, c :: rest =>
    if c == quote then some (String.ofList done.reverse, rest)
    else if c == '\\' && quote == '"' then
      (escape? rest).bind fun (c, rest) => line? quote fuel (c :: done) rest
    else if isPlain c then line? quote fuel (c :: done) rest
    else none

/-- Reads a string over several lines up to its three closing quotes, behind `done`, which is in
reverse. Up to two more quotes in front of those belong to the string. A backslash at the end of a
line drops the blanks and line ends behind it. -/
def block? (quote : Char) : Nat → List Char → List Char → Option (String × List Char)
  | 0, _, _ => none
  | _ + 1, _, [] => none
  | fuel + 1, done, c :: rest =>
    if c == quote then
      let quotes := (c :: rest).takeWhile (· == quote)
      let rest := rest.dropWhile (· == quote)
      if quotes.length < 3 then block? quote fuel (quotes ++ done) rest
      else if quotes.length ≤ 5 then
        some (String.ofList (quotes.drop 3 ++ done).reverse, rest)
      else none
    else if c == '\\' && quote == '"' then
      match newline? (skipSpaces rest) with
      | some rest => block? quote fuel done (skipBreaks rest)
      | none => (escape? rest).bind fun (c, rest) => block? quote fuel (c :: done) rest
    else if isPlain c then block? quote fuel (c :: done) rest
    else (newline? (c :: rest)).bind fun rest => block? quote fuel ('\n' :: done) rest

/-- Reads a string behind its first quote. -/
def string? (quote : Char) (text : List Char) : Option (String × List Char) :=
  match text with
  | a :: b :: rest =>
    if a == quote && b == quote then
      block? quote (rest.length + 1) [] ((newline? rest).getD rest)
    else line? quote (text.length + 1) [] text
  | _ => line? quote (text.length + 1) [] text

end FpgaBitstream.Toml
