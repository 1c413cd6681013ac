import FpgaBitstream.Document
import FpgaBitstream.Text.Hex

/-!
# JSON tokens

The brackets, separators and scalar values of a JSON text. `Json.tokens?` cuts a text into its
tokens; it fails where a string, a number or a bare word is malformed.
-/

namespace FpgaBitstream.Json

/-- A token of a JSON text. -/
inductive Token where
  | openList
  | closeList
  | openTable
  | closeTable
  | comma
  | colon
  | scalar (value : Document)

/-- One item of a string: a character, or an escaped code unit of sixteen bits. -/
inductive StringItem where
  | char (c : Char)
  | unit (code : Nat)

/-- The characters of a string. Two escaped surrogates make up one character; one alone makes
none. -/
def joinItems? : List StringItem → Option (List Char)
  | [] => some []
  | .char c :: rest => (joinItems? rest).map (c :: ·)
  | .unit high :: .unit low :: rest =>
    if 0xD800 ≤ high ∧ high < 0xDC00 then
      if 0xDC00 ≤ low ∧ low < 0xE000 then
        (joinItems? rest).map
          (Char.ofNat (0x10000 + (high - 0xD800) * 0x400 + (low - 0xDC00)) :: ·)
      else none
    else if 0xDC00 ≤ high ∧ high < 0xE000 then none
    else (joinItems? (.unit low :: rest)).map (Char.ofNat high :: ·)
  | .unit code :: rest =>
    if 0xD800 ≤ code ∧ code < 0xE000 then none else (joinItems? rest).map (Char.ofNat code :: ·)

/-- The character of a one-letter escape. -/
def escape? : Char → Option Char
  | '"' => some '"'
  | '\\' => some '\\'
  | '/' => some '/'
  | 'b' => some '\x08'
  | 'f' => some '\x0c'
  | 'n' => some '\n'
  | 'r' => some '\r'
  | 't' => some '\t'
  | _ => none

/-- Reads a string up to its closing quote, behind the items in `done`, which are in reverse. -/
def string? (done : List StringItem) : List Char → Option (List StringItem × List Char)
  | [] => none
  | '"' :: rest => some (done.reverse, rest)
  | '\\' :: 'u' :: a :: b :: c :: d :: rest =>
    (Hex.digitsFrom? 0 [a, b, c, d]).bind fun code => string? (.unit code :: done) rest
  | '\\' :: c :: rest => (escape? c).bind fun c => string? (.char c :: done) rest
  | c :: rest => if c.toNat < 0x20 then none else string? (.char c :: done) rest

theorem string?_length_le {done items : List StringItem} {text rest : List Char}
    (h : string? done text = some (items, rest)) : rest.length < text.length := by
  fun_induction string? done text with
  | case1 => simp at h
  | case2 => simp_all
  | case3 _ _ _ _ _ _ ih =>
    obtain ⟨_, _, h⟩ := Option.bind_eq_some_iff.1 h
    have := ih _ h
    simp only [List.length_cons]
    omega
  | case4 _ _ _ _ ih =>
    obtain ⟨_, _, h⟩ := Option.bind_eq_some_iff.1 h
    have := ih _ h
    simp only [List.length_cons]
    omega
  | case5 => simp at h
  | case6 =>
    rename_i ih
    have := ih h
    simp only [List.length_cons]
    omega

/-- Whether a character can be part of a number. -/
def isNumberChar (c : Char) : Bool :=
  c.isDigit || c == '-' || c == '+' || c == '.' || c == 'e' || c == 'E'

/-- Whether the characters are the exponent of a number, without its letter. -/
def isExponent (text : List Char) : Bool :=
  let digits := match text with
    | '+' :: rest => rest
    | '-' :: rest => rest
    | _ => text
  !digits.isEmpty && digits.all Char.isDigit

/-- Whether the characters behind the integer part of a number are a fraction, an exponent or
both. -/
def isFractionOrExponent : List Char → Bool
  | '.' :: rest =>
    let digits := rest.takeWhile Char.isDigit
    !digits.isEmpty && match rest.dropWhile Char.isDigit with
      | [] => true
      | c :: exponent => (c == 'e' || c == 'E') && isExponent exponent
  | c :: rest => (c == 'e' || c == 'E') && isExponent rest
  | [] => false

/-- The number that a literal spells. Minus zero is no integer. -/
def number? (literal : List Char) : Option Document :=
  let (negative, body) := match literal with
    | '-' :: rest => (true, rest)
    | _ => (false, literal)
  let digits := body.takeWhile Char.isDigit
  let rest := body.dropWhile Char.isDigit
  let value := digits.foldl (fun value d => value * 10 + (d.toNat - '0'.toNat)) 0
  if digits.isEmpty || (digits.head? == some '0' && digits.length != 1) then none
  else if rest.isEmpty then
    if negative && value == 0 then some (.real "-0")
    else some (.integer (if negative then -value else value))
  else if isFractionOrExponent rest then some (.real (String.ofList literal))
  else none

/-- The value of a bare word. -/
def word? (word : List Char) : Option Document :=
  if word = ['n', 'u', 'l', 'l'] then some .null
  else if word = ['t', 'r', 'u', 'e'] then some (.bool true)
  else if word = ['f', 'a', 'l', 's', 'e'] then some (.bool false)
  else none

/-- The tokens of a text, behind those in `done`, which are in reverse. -/
def tokensOnto? (done : List Token) (text : List Char) : Option (List Token) :=
  match text with
  | [] => some done.reverse
  | '[' :: rest => tokensOnto? (.openList :: done) rest
  | ']' :: rest => tokensOnto? (.closeList :: done) rest
  | '\x7b' :: rest => tokensOnto? (.openTable :: done) rest
  | '\x7d' :: rest => tokensOnto? (.closeTable :: done) rest
  | ',' :: rest => tokensOnto? (.comma :: done) rest
  | ':' :: rest => tokensOnto? (.colon :: done) rest
  | '"' :: rest =>
    match _ : string? [] rest with
    | some (items, rest') =>
      tokensOnto? (.scalar (.text ((joinItems? items).map String.ofList)) :: done) rest'
    | none => none
  | c :: rest =>
    if c == ' ' || c == '\n' || c == '\t' || c == '\r' then tokensOnto? done rest
    else if c == '-' || c.isDigit then
      match number? (c :: rest.takeWhile isNumberChar) with
      | some value => tokensOnto? (.scalar value :: done) (rest.dropWhile isNumberChar)
      | none => none
    else
      match word? (c :: rest.takeWhile Char.isAlpha) with
      | some value => tokensOnto? (.scalar value :: done) (rest.dropWhile Char.isAlpha)
      | none => none
termination_by text.length
decreasing_by
  all_goals simp only [List.length_cons]
  all_goals first
    | exact Nat.lt_succ_of_le (List.dropWhile_sublist _).length_le
    | exact Nat.lt_succ_of_lt (string?_length_le ‹string? [] rest = some (items, rest')›)
    | omega

/-- The tokens of a text. -/
def tokens? (text : List Char) : Option (List Token) := tokensOnto? [] text

end FpgaBitstream.Json
