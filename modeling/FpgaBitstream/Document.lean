/-!
# Structured documents

Geometry files and settings are written in JSON and TOML. Both formats spell values of the type
`Document`; what a value means is decided by the readers of each kind of file, through the small
decoders at the end of this module. `DecodeRules` holds the two points in which the formats treat
such a reader differently.
-/

namespace FpgaBitstream

/-- A value of a structured document. A text or key without a value is well formed, but its escapes
denote no Unicode text. -/
inductive Document where
  | null
  | bool (value : Bool)
  | integer (value : Int)
  /-- A number with a fraction or an exponent, as it is written. -/
  | real (literal : String)
  | text (value : Option String)
  | dateTime
  | list (elements : List Document)
  | table (members : List (Option String × Document))
  deriving Repr, Inhabited

namespace Document

/-- The document of a string. -/
def string (value : String) : Document := .text (some value)

/-- The document of a natural number. -/
def nat (value : Nat) : Document := .integer value

/-- The document of named fields. -/
def record (members : List (String × Document)) : Document :=
  .table (members.map fun (key, value) => (some key, value))

/-- What a format leaves to the reader of a file. -/
structure DecodeRules where
  /-- Whether a list that stands for a record may be longer than the record. -/
  allowsExtraElements : Bool
  /-- Whether a value stands for the payload of a variant without payload. -/
  isUnit : Document → Bool

/-- The values of the named fields. A record may be written as a list of its fields in order, with
the last ones missing; other fields of a table are passed over, but no field may be repeated and
every key has to be text. A date-time counts as a table without any of the fields. -/
def fields? (rules : DecodeRules) (names : List String) :
    Document → Option (List (Option Document))
  | .table members =>
    if members.all fun member => member.1.isSome then
      names.mapM fun name =>
        match members.filter fun member => member.1 == some name with
        | [] => some none
        | [(_, value)] => some (some value)
        | _ => none
    else none
  | .list elements =>
    if rules.allowsExtraElements || (elements.drop names.length).isEmpty then
      some ((elements.map some ++ List.replicate names.length none).take names.length)
    else none
  | .dateTime => some (List.replicate names.length none)
  | _ => none

/-- A field that has to be there. -/
def required {α : Type} (decode : Document → Option α) (field : Option Document) : Option α :=
  field.bind decode

/-- A field that has a value when it is missing. -/
def withDefault {α : Type} (value : α) (decode : Document → Option α) :
    Option Document → Option α
  | some field => decode field
  | none => some value

/-- A value that may be null. -/
def nullable {α : Type} (decode : Document → Option α) : Document → Option (Option α)
  | .null => some none
  | value => (decode value).map some

/-- A truth value. -/
def bool? : Document → Option Bool
  | .bool value => some value
  | _ => none

/-- A text. -/
def text? : Document → Option String
  | .text value => value
  | _ => none

/-- A number of 32 bits. -/
def nat32? : Document → Option Nat
  | .integer value => if 0 ≤ value ∧ value < UInt32.size then some value.toNat else none
  | _ => none

/-- A list of values of one kind. -/
def list? {α : Type} (decode : Document → Option α) : Document → Option (List α)
  | .list elements => elements.mapM decode
  | _ => none

/-- The element of a finite type that a document names, by its name alone or as the only key of a
table whose value stands for no payload. -/
def variant? {α : Type} (rules : DecodeRules) (all : List α) (name : α → String) :
    Document → Option α
  | .text (some key) => all.find? fun x => name x == key
  | .table [(some key, payload)] =>
    if rules.isUnit payload then all.find? fun x => name x == key else none
  | _ => none

end Document

end FpgaBitstream
