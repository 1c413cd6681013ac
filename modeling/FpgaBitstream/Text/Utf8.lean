/-!
# Text as bytes

The two directions between texts and their bytes in UTF-8.
-/

namespace FpgaBitstream.Utf8

/-- The text that bytes spell. -/
def decode? (bytes : List UInt8) : Option String := String.fromUTF8? ⟨bytes.toArray⟩

/-- The bytes of a text. -/
def encode (text : String) : List UInt8 := text.toUTF8.data.toList

/-- What is shown for bytes that spell no text. -/
def invalidText : String := "stream did not contain valid UTF-8"

end FpgaBitstream.Utf8
