import FpgaBitstream.Document
import FpgaBitstream.Text.Hex

/-!
# TOML numbers and dates

The values of TOML that are no string, list or table: integers of 64 bits in four bases, numbers
with a fraction or an exponent, truth values, and dates with times. No reader of this library needs
the value of a date, so that only its form is checked.
-/

namespace FpgaBitstream.Toml

/-- The digits of a run in which single underscores may stand between digits. -/
def digits? (isDigit : Char → Bool) (text : List Char) : Option (List Char) :=
  let digits := text.filter (· != '_')
  if !digits.isEmpty && digits.all isDigit && text.head? != some '_' &&
      text.getLast? != some '_' && !(text.zip text.tail).contains ('_', '_') then some digits
  else none

/-- The number that digits spell in a base. -/
def valueOf (base : Nat) (digits : List Char) : Nat :=
  digits.foldl (fun value d => value * base + (Hex.digit? d).getD 0) 0

/-- An integer of 64 bits. -/
def integer? (value : Int) : Option Document :=
  if Int64.minValue.toInt ≤ value ∧ value ≤ Int64.maxValue.toInt then some (.integer value)
  else none

/-- An integer in a base other than ten. It has no sign. -/
def based? (base : Nat) (isDigit : Char → Bool) (text : List Char) : Option Document :=
  (digits? isDigit text).bind fun digits => integer? (valueOf base digits)

/-- Whether m * 10 ^ e is too large for a number of double precision. -/
def exceedsDouble (m : Nat) (e : Int) : Bool :=
  let length : Int := (Nat.toDigits 10 m).length
  if m = 0 ∨ e + length < 300 then false
  else if 400 < e + length then true
  else Nat.pow 2 1024 - Nat.pow 2 970 ≤ m * Nat.pow 10 e.toNat / Nat.pow 10 (-e).toNat

/-- The digits of an exponent with its sign, as a number. -/
def exponent? (text : List Char) : Option Int :=
  match text with
  | '+' :: rest => (digits? Char.isDigit rest).map fun digits => (valueOf 10 digits : Int)
  | '-' :: rest => (digits? Char.isDigit rest).map fun digits => -(valueOf 10 digits : Int)
  | _ => (digits? Char.isDigit text).map fun digits => (valueOf 10 digits : Int)

/-- The fraction and exponent behind the integer part of a number: the digits of the fraction, and
the exponent. -/
def fractionAndExponent? : List Char → Option (List Char × Int)
  | '.' :: rest => do
    let isFraction := fun c : Char => c.isDigit || c == '_'
    let fraction ← digits? Char.isDigit (rest.takeWhile isFraction)
    match rest.dropWhile isFraction with
    | [] => return (fraction, 0)
    | c :: exponent =>
      if c == 'e' || c == 'E' then return (fraction, ← exponent? exponent) else none
  | c :: exponent => do
    if c == 'e' || c == 'E' then return ([], ← exponent? exponent) else none
  | [] => none

/-- The number that a literal spells in base ten, without its sign. -/
def decimal? (negative : Bool) (literal : List Char) : Option Document := do
  if literal = ['i', 'n', 'f'] ∨ literal = ['n', 'a', 'n'] then
    return .real (String.ofList literal)
  let isWhole := fun c : Char => c.isDigit || c == '_'
  let digits ← digits? Char.isDigit (literal.takeWhile isWhole)
  if digits.head? = some '0' ∧ digits.length ≠ 1 then none
  match literal.dropWhile isWhole with
  | [] => integer? (if negative then -(valueOf 10 digits : Int) else valueOf 10 digits)
  | rest =>
    let (fraction, exponent) ← fractionAndExponent? rest
    let mantissa := valueOf 10 (digits ++ fraction)
    if !negative && exceedsDouble mantissa (exponent - fraction.length) then none
    else return .real (String.ofList literal)

/-- The number that a literal spells. -/
def number? : List Char → Option Document
  | '0' :: 'x' :: digits => based? 16 (fun c => (Hex.digit? c).isSome) digits
  | '0' :: 'o' :: digits => based? 8 (fun c => '0' ≤ c && c ≤ '7') digits
  | '0' :: 'b' :: digits => based? 2 (fun c => c == '0' || c == '1') digits
  | '+' :: literal => decimal? false literal
  | '-' :: literal => decimal? true literal
  | literal => decimal? false literal

/-- Reads a number of exactly `count` digits. -/
def fixed? (count : Nat) (text : List Char) : Option (Nat × List Char) :=
  let digits := text.take count
  if digits.length = count ∧ digits.all Char.isDigit then some (valueOf 10 digits, text.drop count)
  else none

/-- Reads one given character. -/
def expect? (c : Char) : List Char → Option (List Char)
  | d :: rest => if c == d then some rest else none
  | [] => none

/-- The number of days in a month. -/
def daysIn (year month : Nat) : Nat :=
  if month = 2 then
    if year % 4 = 0 ∧ (year % 100 ≠ 0 ∨ year % 400 = 0) then 29 else 28
  else if month = 4 ∨ month = 6 ∨ month = 9 ∨ month = 11 then 30
  else 31

/-- Reads a date. -/
def date? (text : List Char) : Option (List Char) := do
  let (year, text) ← fixed? 4 text
  let text ← expect? '-' text
  let (month, text) ← fixed? 2 text
  let text ← expect? '-' text
  let (day, text) ← fixed? 2 text
  if 1 ≤ month ∧ month ≤ 12 ∧ 1 ≤ day ∧ day ≤ daysIn year month then return text else none

/-- Reads a time of day. A leap second is allowed. -/
def time? (text : List Char) : Option (List Char) := do
  let (hour, text) ← fixed? 2 text
  let text ← expect? ':' text
  let (minute, text) ← fixed? 2 text
  let text ← expect? ':' text
  let (second, text) ← fixed? 2 text
  if hour ≤ 23 ∧ minute ≤ 59 ∧ second ≤ 60 then
    match text with
    | '.' :: d :: rest => if d.isDigit then return rest.dropWhile Char.isDigit else return text
    | _ => return text
  else none

/-- Reads the offset from universal time, if there is one. -/
def offset? : List Char → Option (List Char)
  | 'Z' :: rest => some rest
  | 'z' :: rest => some rest
  | c :: rest =>
    if c == '+' || c == '-' then do
      let (hour, rest) ← fixed? 2 rest
      let rest ← expect? ':' rest
      let (minute, rest) ← fixed? 2 rest
      if hour ≤ 23 ∧ minute ≤ 59 then return rest else none
    else some (c :: rest)
  | [] => some []

/-- Reads a date, a time, or both. -/
def dateTime? (text : List Char) : Option (List Char) :=
  match date? text with
  | some rest =>
    match rest with
    | c :: more =>
      if c == 'T' || c == 't' || c == ' ' then
        match time? more with
        | some rest => offset? rest
        | none => some rest
      else some rest
    | [] => some rest
  | none => time? text

/-- Whether a character can be part of a number or of a bare word. -/
def isLiteralChar (c : Char) : Bool := c.isAlphanum || c == '+' || c == '-' || c == '.' || c == '_'

/-- Reads a value that is no string, list or table. -/
def scalar? (text : List Char) : Option (Document × List Char) :=
  match dateTime? text with
  | some rest => some (.dateTime, rest)
  | none =>
    let literal := text.takeWhile isLiteralChar
    let rest := text.dropWhile isLiteralChar
    if literal = ['t', 'r', 'u', 'e'] then some (.bool true, rest)
    else if literal = ['f', 'a', 'l', 's', 'e'] then some (.bool false, rest)
    else (number? literal).map (·, rest)

end FpgaBitstream.Toml
