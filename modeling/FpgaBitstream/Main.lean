import FpgaBitstream.Tool

/-!
# The program

The tool on the real file system and the standard streams.
-/

namespace FpgaBitstream

/-- The texts of the system's error codes that opening, reading and writing files give. -/
def systemTexts : List (Nat × String) :=
  [(1, "Operation not permitted"), (5, "Input/output error"), (6, "No such device or address"),
   (13, "Permission denied"), (17, "File exists"), (22, "Invalid argument"),
   (24, "Too many open files"), (26, "Text file busy"), (27, "File too large"),
   (30, "Read-only file system"), (40, "Too many levels of symbolic links")]

/-- The failure of an error code, which some calls negate. -/
def fileErrorOfCode (code : UInt32) (details : String) : FileError :=
  match if code < 0x80000000 then code.toNat else (0 - code).toNat with
  | 2 => .missing
  | 20 => .notDirectory
  | 21 => .directory
  | 28 => .noSpace
  | 36 => .nameTooLong
  | code => .other s!"{(systemTexts.lookup code).getD details} (os error {code})"

/-- The failure behind an error of the runtime. -/
def fileErrorOf : IO.Error → FileError
  | .alreadyExists _ code details | .invalidArgument _ code details
  | .permissionDenied _ code details | .resourceExhausted _ code details
  | .inappropriateType _ code details | .noSuchThing _ code details
  | .noFileOrDirectory _ code details | .interrupted _ code details
  | .otherError code details | .resourceBusy code details | .resourceVanished code details
  | .unsupportedOperation code details | .hardwareFault code details
  | .unsatisfiedConstraints code details | .illegalOperation code details
  | .protocolError code details | .timeExpired code details => fileErrorOfCode code details
  | .unexpectedEof => .other "unexpected end of file"
  | .userError text => .other text

/-- The file system and the standard streams. -/
def systemHost : Host IO where
  read path := do
    try return .ok (← IO.FS.readBinFile path).data.toList
    catch e => return .error (fileErrorOf e)
  write path bytes := do
    try
      IO.FS.writeBinFile path ⟨bytes.toArray⟩
      return .ok ()
    catch e => return .error (fileErrorOf e)
  workingDirectory := return (← IO.currentDir).toString
  out text := do
    let stream ← IO.getStdout
    stream.putStr text
    stream.flush
  err text := do
    let stream ← IO.getStderr
    stream.putStr text
    stream.flush

end FpgaBitstream

/-- Runs the tool. -/
def main (words : List String) : IO UInt32 :=
  FpgaBitstream.Tool.run FpgaBitstream.systemHost words
