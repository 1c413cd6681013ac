import FpgaBitstream.Host
import FpgaBitstream.Text.Blank
import FpgaBitstream.Text.Utf8

/-!
# A host in memory

`Memory` is a tree of directories, files and devices together with what a program has shown, so
that a run of the tool is a function of its files. A path is followed name by name (`enter`); it
fails at the first name that leads nowhere, before anything behind it is looked at. `Memory.read`
and `Memory.write` are the two uses of a path, and `Memory.host` is the host.
-/

namespace FpgaBitstream

/-- A special file. -/
inductive Device where
  /-- Empty when it is read, and without an end when it is written. -/
  | null
  /-- Without an end in both directions. -/
  | zero
  /-- Without an end when it is read, and without room for a single byte. -/
  | full
  | standardOutput
  | standardError
  /-- The controlling terminal, which the program does not have. -/
  | terminal
  deriving DecidableEq, Repr

namespace Device

/-- The failure to open a device that is not there. -/
def absent : FileError := .other "No such device or address (os error 6)"

/-- The failure to keep the contents of a device without an end. -/
def endless : FileError := .other "out of memory"

/-- All that can be read from a device. -/
def read : Device → Except FileError (List UInt8)
  | null | standardOutput | standardError => .ok []
  | zero | full => .error endless
  | terminal => .error absent

end Device

/-- What a name in a directory stands for. -/
inductive FileEntry where
  | directory
  | file (bytes : List UInt8)
  | device (d : Device)
  deriving DecidableEq, Repr

/-- A place in the tree: the names on the way to it, the innermost first. -/
abbrev FilePlace := List String

/-- The places of the directories on the way to a place. -/
def FilePlace.parents : FilePlace → List FilePlace
  | [] => []
  | _ :: parent => parent :: FilePlace.parents parent

/-- Files in memory, the working directory, and what was shown on the output streams. -/
structure Memory where
  /-- The entries below the root. The first entry of a place is the one that counts. -/
  entries : List (FilePlace × FileEntry)
  home : FilePlace
  out : List UInt8 := []
  err : List UInt8 := []

namespace Memory

/-! ## Paths -/

/-- The largest number of bytes in a name. -/
def maxNameBytes : Nat := 255

/-- The largest number of bytes in a path. -/
def maxPathBytes : Nat := 4095

/-- The names in a path. Neighbouring slashes have an empty name between them. -/
def namesOf (path : String) : List String :=
  (Text.splitAt (· == '/') path.toList).map String.ofList

/-- Whether a name stands for an entry of a directory, and not for the directory or its parent. -/
def isEntryName (name : String) : Bool := name != "" && name != "." && name != ".."

/-- What stands at a place. -/
def entry? (m : Memory) : FilePlace → Option FileEntry
  | [] => some .directory
  | place => m.entries.lookup place

/-- Where a path starts: at the root if a slash comes first, otherwise in the working directory. -/
def start (m : Memory) (path : String) : FilePlace :=
  if path.toList.head? = some '/' then [] else m.home

/-- The place of a name in a directory, whether there is such an entry or not. -/
def child (here : FilePlace) (name : String) : Except FileError FilePlace :=
  if maxNameBytes < name.utf8ByteSize then .error .nameTooLong else .ok (name :: here)

/-- Goes from a directory to the one that a name stands for. The root is its own parent. -/
def enter (m : Memory) (here : FilePlace) (name : String) : Except FileError FilePlace :=
  if name = ".." then .ok here.tail
  else if !isEntryName name then .ok here
  else do
    let place ← child here name
    match m.entry? place with
    | some .directory => return place
    | some _ => throw .notDirectory
    | none => throw .missing

/-- The directory at the end of a list of names. -/
def descend (m : Memory) (here : FilePlace) (names : List String) : Except FileError FilePlace :=
  names.foldlM m.enter here

/-- The place that a list of names leads to. All names but the last are those of directories; the
last may lead to a place without an entry. -/
def follow (m : Memory) (here : FilePlace) (names : List String) : Except FileError FilePlace := do
  let parent ← m.descend here names.dropLast
  match names.getLast? with
  | some name => if isEntryName name then child parent name else m.enter parent name
  | none => return parent

/-- Refuses a path that no entry can have. -/
def checkLength (path : String) : Except FileError Unit :=
  if path = "" then .error .missing
  else if maxPathBytes < path.utf8ByteSize then .error .nameTooLong
  else .ok ()

/-! ## Files -/

/-- The bytes of a file. -/
def read (m : Memory) (path : String) : Except FileError (List UInt8) := do
  checkLength path
  match m.entry? (← m.follow (m.start path) (namesOf path)) with
  | some (.file bytes) => return bytes
  | some (.device d) => d.read
  | some .directory => throw .directory
  | none => throw .missing

/-- The place that a path leads to for writing. No file is made by a path that ends with a slash:
it is taken for the path of a directory, whatever stands there. -/
def placeToWrite (m : Memory) (path : String) : Except FileError FilePlace := do
  checkLength path
  let names := ((namesOf path).reverse.dropWhile (· == "")).reverse
  if path.toList.getLast? = some '/' then
    let _ ← m.descend (m.start path) names.dropLast
    throw .directory
  else m.follow (m.start path) names

/-- The memory with a file, in place of the one that was there. -/
def put (m : Memory) (place : FilePlace) (bytes : List UInt8) : Memory :=
  { m with entries := (place, .file bytes) :: m.entries.filter fun entry => entry.1 != place }

/-- The memory after bytes were written to a device. -/
def writeDevice (m : Memory) (bytes : List UInt8) : Device → Except FileError Memory
  | .null | .zero => .ok m
  | .full => if bytes.isEmpty then .ok m else .error .noSpace
  | .standardOutput => .ok { m with out := m.out ++ bytes }
  | .standardError => .ok { m with err := m.err ++ bytes }
  | .terminal => .error Device.absent

/-- The memory after bytes were written to a file, which is made if it is not there. -/
def write (m : Memory) (path : String) (bytes : List UInt8) : Except FileError Memory := do
  let place ← m.placeToWrite path
  match m.entry? place with
  | some .directory => throw .directory
  | some (.device d) => m.writeDevice bytes d
  | _ => return m.put place bytes

/-! ## The tree -/

/-- The names of the directories below the root, besides those of the devices. -/
def rootDirectories : List String :=
  ["bin", "etc", "home", "lib", "opt", "proc", "root", "run", "sbin", "srv", "sys", "tmp", "usr",
    "var"]

/-- The special files. Standard input is empty. -/
def devices : List (FilePlace × Device) :=
  [(["null", "dev"], .null), (["zero", "dev"], .zero), (["full", "dev"], .full),
    (["tty", "dev"], .terminal), (["stdin", "dev"], .null), (["stdout", "dev"], .standardOutput),
    (["stderr", "dev"], .standardError), (["0", "fd", "dev"], .null),
    (["1", "fd", "dev"], .standardOutput), (["2", "fd", "dev"], .standardError)]

/-- The working directory of a new memory. -/
def newHome : FilePlace := ["work", "tmp"]

/-- The memory with the given files in its working directory. -/
def ofFiles (files : List (String × List UInt8)) : Memory :=
  let files := files.map fun (path, bytes) =>
    ((((namesOf path).filter isEntryName).reverse ++ newHome : FilePlace), FileEntry.file bytes)
  let special := devices.map fun (place, device) => (place, FileEntry.device device)
  let inner := (newHome, FileEntry.directory) :: (files ++ special)
  let directories := inner.flatMap fun entry =>
    (FilePlace.parents entry.1).map fun place => (place, FileEntry.directory)
  { entries := inner ++ directories ++ rootDirectories.map fun name => ([name], .directory)
    home := newHome }

/-- The path of the working directory. -/
def homePath (m : Memory) : String := "/" ++ String.intercalate "/" m.home.reverse

/-- The host. -/
def host : Host (StateM Memory) where
  read path := do return (← get).read path
  write path bytes := do
    match (← get).write path bytes with
    | .ok m =>
      set m
      return .ok ()
    | .error e => return .error e
  workingDirectory := do return (← get).homePath
  out text := modify fun m => { m with out := m.out ++ Utf8.encode text }
  err text := modify fun m => { m with err := m.err ++ Utf8.encode text }

end Memory

end FpgaBitstream
