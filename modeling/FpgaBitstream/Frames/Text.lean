import FpgaBitstream.Frames
import FpgaBitstream.Text.Blank
import FpgaBitstream.Text.Utf8

/-!
# Frame files

A frame file holds one frame on a line: the address in hexadecimal, a blank, and the words
separated by commas or blanks. Blank lines and lines that begin with a number sign are passed
over. `Frames.ofText` reads a file and `Frames.toText` writes one; a file that comes as bytes is
read by `Frames.ofBytes`, which decodes it a line at a time.
-/

namespace FpgaBitstream

/-- Why a frame file cannot be read. Lines are counted from one. -/
inductive FrameFileError where
  | notText
  | invalidAddress (line : Nat) (token : List Char)
  | invalidWord (line : Nat) (token : List Char)
  | wrongFrameLength (line expected found : Nat)
  deriving DecidableEq, Repr

/-- The text shown for a frame file that cannot be read. -/
def FrameFileError.message : FrameFileError → String
  | notText => "I/O error: " ++ Utf8.invalidText
  | invalidAddress line token =>
    s!"line {line}: invalid frame address '" ++ String.ofList token ++ "'"
  | invalidWord line token => s!"line {line}: invalid frame word '" ++ String.ofList token ++ "'"
  | wrongFrameLength line expected found =>
    s!"line {line}: frame has {found} words, expected {expected}"

namespace Frames

variable {f : Family}

/-- The number of words that the frame of an address must have. Frames of the third block type of
Spartan-6 vary in length. -/
def expectedWords? (a : FrameAddress f) : Option Nat :=
  if !f.hasWideWords && a.blockType = .cfgClb then none else some f.wordsPerFrame

/-- The words of a frame, the leftmost bad one being reported. -/
def parseWords (line : Nat) (tokens : List (List Char)) : Except FrameFileError (List Word) :=
  tokens.mapM fun token =>
    match Hex.parse32? token with
    | some word => .ok word
    | none => .error (.invalidWord line token)

/-- The address and words on a trimmed line. -/
def parseFrame (line : Nat) (text : List Char) :
    Except FrameFileError (FrameAddress f × List Word) := do
  let (addressText, wordsText) := text.span fun c => !Text.isBlank c
  let some raw := Hex.parse32? addressText | throw (.invalidAddress line addressText)
  let tokens := Text.splitAt (fun c => c == ',' || Text.isBlank c) wordsText
  let words ← parseWords line (tokens.filter fun token => !token.isEmpty)
  match expectedWords? (⟨raw⟩ : FrameAddress f) with
  | some expected =>
    if words.length = expected then return (⟨raw⟩, words)
    else throw (.wrongFrameLength line expected words.length)
  | none => return (⟨raw⟩, words)

/-- The frame on a line, if it holds one. A line that is not text is an error. -/
def parseLine (line : Nat) (text : Option (List Char)) :
    Except FrameFileError (Option (FrameAddress f × List Word)) := do
  let some text := text | throw .notText
  match Text.trim text with
  | [] => return none
  | '#' :: _ => return none
  | text => return some (← parseFrame line text)

/-- The frames on the lines of a file from a line number on, added to those before. -/
def readLines (line : Nat) (frames : Frames f) :
    List (Option (List Char)) → Except FrameFileError (Frames f)
  | [] => .ok frames
  | text :: rest =>
    match parseLine line text with
    | .ok (some (a, words)) => readLines (line + 1) (frames.insert a words) rest
    | .ok none => readLines (line + 1) frames rest
    | .error e => .error e

/-- The frames of a file. The frame of a later line wins. -/
def ofText (text : List Char) : Except FrameFileError (Frames f) :=
  readLines 1 .empty ((Text.splitAt (· == '\n') text).map some)

/-- The frames of a file of bytes. -/
def ofBytes (bytes : List UInt8) : Except FrameFileError (Frames f) :=
  readLines 1 .empty
    ((Text.splitAt (· == 0x0A) bytes).map fun line => (Utf8.decode? line).map (·.toList))

/-- The line of a frame. -/
def lineText (a : FrameAddress f) (words : List Word) : String :=
  Hex.prefixed a.raw ++ " " ++ String.intercalate "," (words.map Hex.prefixed) ++ "\n"

/-- The file of a set of frames. -/
def toText (frames : Frames f) : String :=
  String.join (frames.toList.map fun (a, words) => lineText a words)

end Frames

end FpgaBitstream
