import FpgaBitstream.BigEndian
import FpgaBitstream.Text.Hex
import FpgaBitstream.Text.Utf8

/-!
# File headers

A `.bit` file wraps the configuration data in a header: a fixed preamble, four text fields tagged
`a` to `d`, each with a length of two bytes that counts a trailing NUL, and the tag `e` with a
length of four bytes in front of the data. `BitHeader.parse` takes a file apart and
`BitHeader.write` puts it together.
-/

namespace FpgaBitstream

/-- Why a file has no readable header. A field is named by its tag. -/
inductive BitHeaderError where
  | missingPreamble
  | truncated (tag : UInt8)
  | unknownTag (tag : UInt8)
  | invalidText (tag : UInt8)
  deriving DecidableEq, Repr

/-- The text shown for a file without a readable header. -/
def BitHeaderError.message : BitHeaderError → String
  | missingPreamble => "missing .bit preamble"
  | truncated tag => "header truncated in field '" ++ tagText tag ++ "'"
  | unknownTag tag => "unknown header field tag 0x" ++ Hex.padded 2 tag.toNat
  | invalidText tag => "header field '" ++ tagText tag ++ "' is not valid UTF-8"
where
  tagText (tag : UInt8) : String := String.singleton (Char.ofNat tag.toNat)

/-- The text fields of a header. -/
structure BitHeader where
  designName : String := ""
  partName : String := ""
  date : String := ""
  time : String := ""
  deriving DecidableEq, Repr, Inhabited

namespace BitHeader

/-- A text field of a header. -/
inductive Field where
  | designName
  | partName
  | date
  | time
  deriving DecidableEq, Repr

/-- The tag of a text field. -/
def Field.tag : Field → UInt8
  | designName => 0x61
  | partName => 0x62
  | date => 0x63
  | time => 0x64

/-- The text field of a tag. -/
def Field.ofTag? (tag : UInt8) : Option Field :=
  [designName, partName, date, time].find? fun field => field.tag = tag

/-- The tag in front of the data. -/
def dataTag : UInt8 := 0x65

/-- The bytes at the start of every file. -/
def preamble : List UInt8 :=
  [0x00, 0x09, 0x0F, 0xF0, 0x0F, 0xF0, 0x0F, 0xF0, 0x0F, 0xF0, 0x00, 0x00, 0x01]

/-- The text of a field. -/
def get (header : BitHeader) : Field → String
  | .designName => header.designName
  | .partName => header.partName
  | .date => header.date
  | .time => header.time

/-- The header with the text of a field replaced. -/
def set (header : BitHeader) (field : Field) (text : String) : BitHeader :=
  match field with
  | .designName => { header with designName := text }
  | .partName => { header with partName := text }
  | .date => { header with date := text }
  | .time => { header with time := text }

/-- The bytes without one NUL at their end. -/
def stripNul (bytes : List UInt8) : List UInt8 :=
  if bytes.getLast? = some 0 then bytes.dropLast else bytes

/-- Reads the fields behind the preamble. A repeated field replaces the one before, and data that
is shorter than announced is taken as it is. -/
def parseFields (header : BitHeader) : List UInt8 → Except BitHeaderError (BitHeader × List UInt8)
  | [] => .error (.truncated 0)
  | tag :: rest =>
    match Field.ofTag? tag with
    | some field =>
      match rest with
      | high :: low :: rest =>
        let length := high.toNat * 256 + low.toNat
        let value := rest.take length
        if value.length < length then .error (.truncated tag)
        else match Utf8.decode? (stripNul value) with
          | some text => parseFields (header.set field text) (rest.drop length)
          | none => .error (.invalidText tag)
      | _ => .error (.truncated tag)
    | none =>
      if tag = dataTag then
        match rest with
        | b₃ :: b₂ :: b₁ :: b₀ :: rest =>
          .ok (header, rest.take (BigEndian.decode 4 [b₃, b₂, b₁, b₀]).toNat)
        | _ => .error (.truncated tag)
      else .error (.unknownTag tag)
termination_by bytes => bytes.length
decreasing_by simp only [List.length_cons, List.length_drop]; omega

/-- The header of a file, and its configuration data. -/
def parse (bytes : List UInt8) : Except BitHeaderError (BitHeader × List UInt8) :=
  if bytes.take preamble.length = preamble then parseFields {} (bytes.drop preamble.length)
  else .error .missingPreamble

/-- The header of a file if it has a readable one, and the configuration data. -/
def strip (bytes : List UInt8) : Option BitHeader × List UInt8 :=
  match parse bytes with
  | .ok (header, data) => (some header, data)
  | .error _ => (none, bytes)

/-- The bytes of a text field. A length that does not fit two bytes is cut. -/
def fieldBytes (header : BitHeader) (field : Field) : List UInt8 :=
  let text := Utf8.encode (header.get field)
  field.tag :: (BigEndian.encode 2 (BitVec.ofNat 16 (text.length + 1)) ++ text ++ [0])

/-- The file of a header and configuration data. A length that does not fit four bytes is cut. -/
def write (header : BitHeader) (data : List UInt8) : List UInt8 :=
  preamble ++ header.fieldBytes .designName ++ header.fieldBytes .partName ++
    header.fieldBytes .date ++ header.fieldBytes .time ++
    dataTag :: (BigEndian.encode 4 (BitVec.ofNat 32 data.length) ++ data)

end BitHeader

end FpgaBitstream
