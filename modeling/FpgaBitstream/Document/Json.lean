import FpgaBitstream.Document.Json.Printer
import FpgaBitstream.Document.Json.Tokens

/-!
# JSON

Reading of JSON texts. The tokens of a text are built into a value by a machine that keeps the open
lists and tables on a stack (`Json.step?`), so that nesting has no limit.
-/

namespace FpgaBitstream.Json

/-- The points that JSON leaves to a reader: a list stands for a record of at least its length, and
null for an empty payload. -/
def rules : Document.DecodeRules where
  allowsExtraElements := false
  isUnit
    | .null => true
    | _ => false

/-- An open list or table, its entries in reverse. -/
inductive Frame where
  | list (before : List Document)
  | table (before : List (Option String × Document))
  /-- A table that waits for the value of a key. -/
  | member (before : List (Option String × Document)) (key : Option String)

/-- What may come next. -/
inductive Expected where
  | value
  | valueOrClose
  | key
  | keyOrClose
  | colon
  | commaOrClose

/-- The value read so far: open lists and tables, or the whole of it. -/
inductive State where
  | reading (frames : List Frame) (expected : Expected)
  | finished (value : Document)

/-- Puts a value into the innermost open list or table. -/
def put? (value : Document) : List Frame → Option State
  | [] => some (.finished value)
  | .list before :: frames => some (.reading (.list (value :: before) :: frames) .commaOrClose)
  | .member before key :: frames =>
    some (.reading (.table ((key, value) :: before) :: frames) .commaOrClose)
  | .table _ :: _ => none

/-- Begins a value. -/
def begin? (frames : List Frame) : Token → Option State
  | .scalar value => put? value frames
  | .openList => some (.reading (.list [] :: frames) .valueOrClose)
  | .openTable => some (.reading (.table [] :: frames) .keyOrClose)
  | _ => none

/-- Takes in a key. -/
def key? : List Frame → Token → Option State
  | .table before :: frames, .scalar (.text key) =>
    some (.reading (.member before key :: frames) .colon)
  | _, _ => none

/-- Closes the innermost list or table. -/
def close? : List Frame → Token → Option State
  | .list before :: frames, .closeList => put? (.list before.reverse) frames
  | .table before :: frames, .closeTable => put? (.table before.reverse) frames
  | _, _ => none

/-- Takes in one token. -/
def step? : State → Token → Option State
  | .finished _, _ => none
  | .reading frames .value, token => begin? frames token
  | .reading frames .valueOrClose, token => (close? frames token).or (begin? frames token)
  | .reading frames .key, token => key? frames token
  | .reading frames .keyOrClose, token => (close? frames token).or (key? frames token)
  | .reading frames .colon, .colon => some (.reading frames .value)
  | .reading (.list before :: frames) .commaOrClose, .comma =>
    some (.reading (.list before :: frames) .value)
  | .reading (.table before :: frames) .commaOrClose, .comma =>
    some (.reading (.table before :: frames) .key)
  | .reading frames .commaOrClose, token => close? frames token
  | _, _ => none

/-- The value that a text spells. -/
def parse? (text : List Char) : Option Document := do
  match ← (← tokens? text).foldlM step? (.reading [] .value) with
  | .finished value => return value
  | .reading _ _ => none

end FpgaBitstream.Json
