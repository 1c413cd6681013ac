/-!
# Hosts

A `Host` is what a program run has around it: files, a working directory and two output streams,
in any monad. `Host.readFile` and `Host.writeFile` are the ways to its files; they keep out the
names that no file can have.
-/

namespace FpgaBitstream

/-- Why a file cannot be read or written. -/
inductive FileError where
  | missing
  | directory
  /-- A path goes on behind a name that is no directory. -/
  | notDirectory
  | nameTooLong
  | noSpace
  | nulInName
  | other (text : String)
  deriving DecidableEq, Repr

/-- The text shown for a file that cannot be read or written. -/
def FileError.message : FileError → String
  | missing => "No such file or directory (os error 2)"
  | directory => "Is a directory (os error 21)"
  | notDirectory => "Not a directory (os error 20)"
  | nameTooLong => "File name too long (os error 36)"
  | noSpace => "No space left on device (os error 28)"
  | nulInName => "file name contained an unexpected NUL byte"
  | other text => text

/-- The surroundings of a program run. -/
structure Host (m : Type → Type) where
  read : String → m (Except FileError (List UInt8))
  write : String → List UInt8 → m (Except FileError Unit)
  workingDirectory : m String
  /-- Shows text on standard output. -/
  out : String → m Unit
  /-- Shows text on standard error. -/
  err : String → m Unit

namespace Host

variable {m : Type → Type} [Monad m]

/-- Whether a path holds the character that ends the names of files. -/
def holdsNul (path : String) : Bool := path.toList.contains '\x00'

/-- Reads a file. -/
def readFile (host : Host m) (path : String) : m (Except FileError (List UInt8)) :=
  if holdsNul path then return .error .nulInName else host.read path

/-- Writes a file. -/
def writeFile (host : Host m) (path : String) (bytes : List UInt8) : m (Except FileError Unit) :=
  if holdsNul path then return .error .nulInName else host.write path bytes

end Host

end FpgaBitstream
