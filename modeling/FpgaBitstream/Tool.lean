import FpgaBitstream.BitHeader
import FpgaBitstream.CommandLine
import FpgaBitstream.Frames.Text
import FpgaBitstream.Host
import FpgaBitstream.Packet.Stream
import FpgaBitstream.Replay
import FpgaBitstream.Settings

/-!
# The tool

The work behind the command line: listing the packets of a bitstream, turning a bitstream into a
frame file and back. The work is written against a `Host`, in any monad; `Tool.run` is the whole
program and answers with its exit code.
-/

namespace FpgaBitstream

/-- A window of addresses that the command line may give. -/
inductive WindowName where
  | clb
  | ram
  deriving DecidableEq, Repr

/-- The text of a window in the names of its switches. -/
def WindowName.text : WindowName → String
  | clb => "clb"
  | ram => "bram"

/-- Why the program fails. -/
inductive ToolError where
  | file (e : FileError)
  | settingsFile (path : String) (e : FileError)
  | settings (e : SettingsError)
  | noFamily
  | noGeometry
  | geometryFile (e : FileError)
  | geometryJson
  | geometry (e : GeometryError)
  | framesFile (e : FileError)
  | frames (e : FrameFileError)
  | noSyncWord
  | otherPart
  | invertedWindow (name : WindowName) (first last : Word)
  | openWindow (name : WindowName)
  | noWindow
  | nothingSelected
  deriving DecidableEq, Repr

/-- The text shown when the program fails. -/
def ToolError.message : ToolError → String
  | file e => e.message
  | settingsFile path e => "cannot read " ++ path ++ ": " ++ e.message
  | settings e => e.message
  | noFamily => "no device family given: pass --arch or set part.architecture"
  | noGeometry => "no part geometry given: pass --geometry or set part.geometry"
  | geometryFile e => "failed to access geometry file: " ++ e.message
  | geometryJson => "invalid geometry JSON"
  | geometry e => e.message
  | framesFile e => "I/O error: " ++ e.message
  | frames e => e.message
  | noSyncWord => "no sync word found"
  | otherPart => "bitstream does not match the specified part"
  | invertedWindow name first last =>
    s!"--{name.text}-start {Hex.prefixed first} is after --{name.text}-end {Hex.prefixed last}"
  | openWindow name =>
    s!"--{name.text}-start and --{name.text}-end must be given together"
  | noWindow => "--partial needs --clb-start/--clb-end or --bram-start/--bram-end"
  | nothingSelected => "no frames fall inside the partial address ranges"

/-! ## Selections -/

/-- A run of raw addresses with both ends included. -/
structure AddressWindow where
  first : Word
  last : Word
  first_le_last : first ≤ last
  deriving DecidableEq, Repr

/-- Whether a raw address lies in the window. -/
def AddressWindow.contains (window : AddressWindow) (raw : Word) : Bool :=
  window.first ≤ raw && raw ≤ window.last

/-- The window between two bounds, if any is given. -/
def WindowBounds.window? (name : WindowName) : WindowBounds →
    Except ToolError (Option AddressWindow)
  | ⟨some first, some last⟩ =>
    if h : first ≤ last then .ok (some ⟨first, last, h⟩)
    else .error (.invertedWindow name first last)
  | ⟨none, none⟩ => .ok none
  | _ => .error (.openWindow name)

/-- The windows of a partial bitstream. There is at least one. -/
def SelectionBounds.windows (bounds : SelectionBounds) : Except ToolError (List AddressWindow) := do
  let clb ← bounds.clb.window? .clb
  let ram ← bounds.ram.window? .ram
  match clb.toList ++ ram.toList with
  | [] => throw .noWindow
  | windows => return windows

/-! ## Bitstreams and frames -/

namespace Tool

variable {f : Family}

/-- The packets of a bitstream. -/
def packets (data : List UInt8) : Except ToolError (List (Packet f)) :=
  match PacketStream.ofBytes? data with
  | some stream => .ok stream.packets
  | none => .error .noSyncWord

/-- The frames that a bitstream writes to a part. -/
def decode (part : Part f) (data : List UInt8) : Except ToolError (Frames f) := do
  match replay part (← packets data) with
  | some frames => return frames
  | none => throw .otherPart

/-- The frames as the settings want them to be packed. -/
def prepare (settings : OutputSettings) (part : Part f) (frames : Frames f) : Frames f :=
  let frames := if settings.fillMissingFrames then frames.addMissing part else frames
  if settings.updateEcc then frames.updateEcc else frames

/-- The package of prepared frames: all of the part, or the frames in the windows alone. -/
def package (options : PackageOptions) (part : Part f) (frames : Frames f) :
    Option (List AddressWindow) → Except ToolError (List (Packet f))
  | none => .ok (fullPackage part (frames.assemblePayload part) options)
  | some windows =>
    let chosen := frames.retain fun a => windows.any (·.contains a.raw)
    if chosen.isEmpty then .error .nothingSelected
    else .ok (partialPackage part (chosen.segments part) options)

/-- The header of written files. -/
def header (settings : OutputSettings) (designName : Option String) : BitHeader where
  designName := designName.getD settings.designName
  partName := settings.partName
  date := settings.date
  time := settings.time

/-! ## Files -/

variable {m : Type → Type} [Monad m]

/-- Reads a file, a failure being reported as `report` says. -/
def readBytes (host : Host m) (report : FileError → ToolError) (path : String) :
    ExceptT ToolError m (List UInt8) := do
  (← host.readFile path).mapError report

/-- The text in a file that was read, a failure being reported as `report` says. -/
def textOf (report : FileError → ToolError) :
    Except FileError (List UInt8) → Except ToolError (List Char)
  | .ok bytes =>
    match Utf8.decode? bytes with
    | some text => .ok text.toList
    | none => .error (report (.other Utf8.invalidText))
  | .error e => .error (report e)

/-- Writes a file. -/
def writeBytes (host : Host m) (path : String) (bytes : List UInt8) :
    ExceptT ToolError m Unit := do
  (← host.writeFile path bytes).mapError ToolError.file

/-- The settings in a file that was read. -/
def settingsOf (path : String) (result : Except FileError (List UInt8)) :
    Except ToolError Settings := do
  let text ← textOf (.settingsFile path) result
  (Settings.ofToml text).mapError .settings

/-- The settings in a named file, or else those in `xbit.toml` in the working directory, or else
the defaults. -/
def loadSettings (host : Host m) : Option String → ExceptT ToolError m Settings
  | some path => do settingsOf path (← host.readFile path)
  | none => do
    let path := (← host.workingDirectory) ++ "/xbit.toml"
    match ← host.readFile path with
    | .error .missing => return {}
    | .error .directory => return {}
    | result => settingsOf path result

/-- The family to work with: the one asked for, or else that of the settings. -/
def chooseFamily (asked : Option Family) (settings : Settings) : Except ToolError Family :=
  match asked.or settings.device.family with
  | some f => .ok f
  | none => .error .noFamily

/-- The geometry file to work with: the one asked for, or else that of the settings. -/
def chooseGeometry (asked : Option String) (settings : Settings) : Except ToolError String :=
  match asked.or settings.device.geometry with
  | some path => .ok path
  | none => .error .noGeometry

/-- The part that a geometry file describes. -/
def partOf (f : Family) (result : Except FileError (List UInt8)) : Except ToolError (Part f) := do
  let text ← textOf .geometryFile result
  match PartGeometry.ofJson? text with
  | some g => (g.toPart f).mapError .geometry
  | none => throw .geometryJson

/-- Reads the part that a geometry file describes. -/
def loadPart (host : Host m) (f : Family) (path : String) : ExceptT ToolError m (Part f) := do
  partOf f (← host.readFile path)

/-- Shows a message, unless the user asked for none. -/
def tell (host : Host m) (arguments : Arguments) (text : String) : ExceptT ToolError m Unit :=
  if arguments.quiet then return else host.err ("   " ++ text ++ "\n")

/-! ## Tasks -/

/-- Lists the packets of a bitstream, one on a line. -/
def runDump (host : Host m) (arguments : Arguments) : ExceptT ToolError m Unit := do
  let settings ← loadSettings host arguments.config
  let f ← chooseFamily arguments.family settings
  let (header, data) := BitHeader.strip (← readBytes host .file arguments.file)
  if let some header := header then
    tell host arguments
      s!"Design {header.designName} for {header.partName} ({header.date} {header.time})"
  let packets : List (Packet f) ← packets data
  host.out (String.join (packets.map fun p => p.text ++ "\n"))
  tell host arguments
    s!"{packets.length} packets, running CRC {Hex.prefixed (Crc.ofPackets packets)}"

/-- Turns a bitstream into a frame file. -/
def runFrames (host : Host m) (arguments : Arguments) (geometry output : Option String) :
    ExceptT ToolError m Unit := do
  let settings ← loadSettings host arguments.config
  let f ← chooseFamily arguments.family settings
  let geometry ← chooseGeometry geometry settings
  let (_, data) := BitHeader.strip (← readBytes host .file arguments.file)
  let part ← loadPart host f geometry
  let frames ← decode part data
  match output with
  | some path =>
    writeBytes host path (Utf8.encode frames.toText)
    tell host arguments s!"Decoded {frames.size} frames to {path}"
  | none => host.out frames.toText

/-- Turns a frame file into a bitstream. -/
def runPack (host : Host m) (arguments : Arguments) (geometry : Option String) (output : String)
    (raw : Bool) (designName : Option String) (selection : Option SelectionBounds) :
    ExceptT ToolError m Unit := do
  let settings ← loadSettings host arguments.config
  let f ← chooseFamily arguments.family settings
  let geometry ← chooseGeometry geometry settings
  let windows ← selection.mapM (·.windows)
  let part ← loadPart host f geometry
  let bytes ← readBytes host .framesFile arguments.file
  let frames ← (Frames.ofBytes bytes).mapError ToolError.frames
  let packets ← package settings.options part (prepare settings.output part frames) windows
  let stream := Packet.encodeBytes packets
  let bytes := if settings.output.header && !raw
    then (header settings.output designName).write stream else stream
  writeBytes host output bytes
  tell host arguments s!"Wrote {bytes.length} bytes to {output}"

/-- Does the work that the arguments ask for. -/
def execute (host : Host m) (arguments : Arguments) : ExceptT ToolError m Unit :=
  match arguments.task with
  | .dump => runDump host arguments
  | .frames geometry output => runFrames host arguments geometry output
  | .pack geometry output raw designName selection =>
    runPack host arguments geometry output raw designName selection

/-- The name and version of the program. -/
def versionText : String := "xbit 0.1.0\n"

/-- A short account of the command line. -/
def usageText : String :=
  "Usage: xbit [--quiet] [--verbose] [--config <PATH>] <COMMAND>\n\n" ++
  "  dump <BITSTREAM> [--arch <FAMILY>]\n" ++
  "  frames <BITSTREAM> [--arch <FAMILY>] [--geometry <PATH>] [--output <PATH>]\n" ++
  "  pack <FRAMES> --output <PATH> [--arch <FAMILY>] [--geometry <PATH>] [--raw]\n" ++
  "       [--design-name <NAME>] [--partial] [--clb-start <HEX> --clb-end <HEX>]\n" ++
  "       [--bram-start <HEX> --bram-end <HEX>]\n"

/-- Runs the program on the words of a command line and gives its exit code. -/
def run (host : Host m) (words : List String) : m UInt32 := do
  match Arguments.parse words with
  | .ok arguments =>
    match ← (execute host arguments).run with
    | .ok () => return 0
    | .error e =>
      host.err ("error: " ++ e.message ++ "\n")
      return 1
  | .error .version =>
    host.out versionText
    return 0
  | .error .help =>
    host.out usageText
    return 0
  | .error .usage =>
    host.err usageText
    return 2

end Tool

end FpgaBitstream
