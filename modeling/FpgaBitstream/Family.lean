import FpgaBitstream.Text.Blank

/-!
# Device families

The four families of configuration logic. Each has its own packet words, register map, frame
size, address layout and boot sequence; UltraScale and UltraScale+ keep the registers and frame
addresses of the 7-series. Types that depend on the family are indexed by it, and what differs in
number only is a function of it here.
-/

namespace FpgaBitstream

/-- A word of the packet stream or of a frame. Spartan-6 uses its low half only. -/
abbrev Word := BitVec 32

/-- A family of configuration logic. -/
inductive Family where
  | series7
  | ultraScale
  | ultraScalePlus
  | spartan6
  deriving DecidableEq, Repr, Inhabited

/-- A text that names no family. -/
structure UnknownFamily where
  text : String
  deriving DecidableEq, Repr

/-- The text shown for a name that is not known. -/
def UnknownFamily.message (e : UnknownFamily) : String :=
  "unknown architecture '" ++ e.text ++
    "' (expected series7, ultrascale, ultrascale_plus or spartan6)"

namespace Family

/-- All families. -/
def all : List Family := [series7, ultraScale, ultraScalePlus, spartan6]

/-- The canonical name. -/
def name : Family → String
  | series7 => "series7"
  | ultraScale => "ultrascale"
  | ultraScalePlus => "ultrascale_plus"
  | spartan6 => "spartan6"

/-- The family of a canonical name. -/
def ofName? (text : String) : Option Family := all.find? fun f => f.name == text

/-- The names under which users know a family, apart from case, outer blanks and the choice
between `_`, `-` and a space. -/
def aliases : Family → List String
  | series7 => ["series7", "7series", "xc7"]
  | ultraScale => ["ultrascale", "us"]
  | ultraScalePlus => ["ultrascale_plus", "ultrascaleplus", "us+", "usp"]
  | spartan6 => ["spartan6", "xc6s"]

/-- The form in which names are compared: trimmed, ASCII letters in lower case, and `_` for every
hyphen and space. -/
def normalize (text : String) : String :=
  String.ofList <| (Text.trim text.toList).map fun c =>
    if c == '-' || c == ' ' then '_' else c.toLower

/-- The family that a user names. -/
def parse (text : String) : Except UnknownFamily Family :=
  match all.find? fun f => f.aliases.contains (normalize text) with
  | some f => .ok f
  | none => .error ⟨text⟩

/-- The number of words in a frame. -/
def wordsPerFrame : Family → Nat
  | series7 => 101
  | ultraScale => 123
  | ultraScalePlus => 93
  | spartan6 => 65

/-- The number of bytes in a word of the packet stream. -/
def wordBytes : Family → Nat
  | spartan6 => 2
  | _ => 4

/-- Whether the packet stream is made of 32-bit words. -/
def hasWideWords (f : Family) : Bool := f != spartan6

/-- The number of words an IDCODE write carries. -/
def idcodeWords : Family → Nat
  | spartan6 => 2
  | _ => 1

/-- The control bit that keeps a write of the frame address from starting a new run of frame
data. -/
def inhibitBit : Family → Option Nat
  | spartan6 => none
  | _ => some 21

/-- The largest payload of a type-1 packet. -/
def maxType1Words : Family → Nat
  | spartan6 => 0x1F
  | _ => 0x7FF

/-- The words in front of the first packet: padding, the pattern for bus width detection, and the
sync word. -/
def syncHeader : Family → List Word
  | series7 =>
    List.replicate 8 0xFFFFFFFF ++ [0x000000BB, 0x11220044, 0xFFFFFFFF, 0xFFFFFFFF, 0xAA995566]
  | ultraScale => [0xFFFFFFFF, 0x000000BB, 0x11220044, 0xFFFFFFFF, 0xFFFFFFFF, 0xAA995566]
  | ultraScalePlus =>
    List.replicate 16 0xFFFFFFFF ++ [0x000000BB, 0x11220044, 0xFFFFFFFF, 0xFFFFFFFF, 0xAA995566]
  | spartan6 => List.replicate 8 0xFFFF ++ [0xAA99, 0x5566]

theorem wordsPerFrame_pos (f : Family) : 0 < f.wordsPerFrame := by cases f <;> decide

theorem wordBytes_pos (f : Family) : 0 < f.wordBytes := by cases f <;> decide

end Family

end FpgaBitstream
