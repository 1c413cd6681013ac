import FpgaBitstream.Document.Toml
import FpgaBitstream.Geometry.Json
import FpgaBitstream.Package.Document

/-!
# Settings

The settings file `xbit.toml` gives defaults for the command line: the device, the header of written
files, what is done to frames before they are packed, and the options of the package. Every setting
has a default, so that an empty file is complete. `Settings.ofToml` reads a file and then checks
what its form cannot express.
-/

namespace FpgaBitstream

open Document

/-- The device to work on. -/
structure DeviceSettings where
  family : Option Family := none
  /-- The path of the geometry file. -/
  geometry : Option String := none
  deriving DecidableEq, Repr, Inhabited

/-- How bitstreams are written. -/
structure OutputSettings where
  /-- Writes the file header in front of the data. -/
  header : Bool := true
  designName : String := "design"
  partName : String := ""
  date : String := ""
  time : String := ""
  /-- Recomputes the error-correcting code of each frame. -/
  updateEcc : Bool := true
  /-- Adds a zero frame for each frame of the part that the input lacks. -/
  fillMissingFrames : Bool := true
  deriving DecidableEq, Repr, Inhabited

/-- The contents of a settings file. -/
structure Settings where
  device : DeviceSettings := {}
  output : OutputSettings := {}
  options : PackageOptions := {}
  deriving DecidableEq, Repr, Inhabited

/-- Why a settings file is refused. -/
inductive SettingsError where
  | malformed
  | emptyGeometryPath
  | missingDesignName
  | clockOutOfRange (frequency : Nat)
  | noStartupOptions (f : Family)
  deriving DecidableEq, Repr

/-- The text shown for a settings file that is refused. -/
def SettingsError.message : SettingsError → String
  | malformed => "malformed xbit.toml"
  | emptyGeometryPath => "part.geometry is set to an empty path"
  | missingDesignName => "output.header needs a non-empty output.design_name"
  | clockOutOfRange frequency =>
    s!"options.cor0.cclk_frequency {frequency} does not fit in 6 bits"
  | noStartupOptions f => s!"{f.name} has no COR0 register"

/-- The device that a document selects. -/
def DeviceSettings.ofDocument? (rules : DecodeRules) (value : Document) :
    Option DeviceSettings := do
  match ← fields? rules ["architecture", "geometry"] value with
  | [family, geometry] =>
    return {
      family := ← withDefault none (nullable (Family.ofDocument? rules)) family
      geometry := ← withDefault none (nullable text?) geometry }
  | _ => none

/-- The output settings that a document gives. -/
def OutputSettings.ofDocument? (rules : DecodeRules) (value : Document) :
    Option OutputSettings := do
  let defaults : OutputSettings := {}
  let names :=
    ["header", "design_name", "part_name", "date", "time", "update_ecc", "fill_missing_frames"]
  match ← fields? rules names value with
  | [header, designName, partName, date, time, updateEcc, fillMissingFrames] =>
    return {
      header := ← withDefault defaults.header bool? header
      designName := ← withDefault defaults.designName text? designName
      partName := ← withDefault defaults.partName text? partName
      date := ← withDefault defaults.date text? date
      time := ← withDefault defaults.time text? time
      updateEcc := ← withDefault defaults.updateEcc bool? updateEcc
      fillMissingFrames := ← withDefault defaults.fillMissingFrames bool? fillMissingFrames }
  | _ => none

namespace Settings

/-- The settings that a document gives. -/
def ofDocument? (rules : DecodeRules) (value : Document) : Option Settings := do
  match ← fields? rules ["part", "output", "options"] value with
  | [device, output, options] =>
    return {
      device := ← withDefault {} (DeviceSettings.ofDocument? rules) device
      output := ← withDefault {} (OutputSettings.ofDocument? rules) output
      options := ← withDefault {} (PackageOptions.ofDocument? rules) options }
  | _ => none

/-- The largest value that fits the clock frequency field. -/
def maxClockFrequency : Nat := 0x3F

/-- Settings that pass the checks, or the first check that fails. -/
def validate (s : Settings) : Except SettingsError Settings := do
  if s.device.geometry = some "" then throw .emptyGeometryPath
  if s.output.header ∧ s.output.designName = "" then throw .missingDesignName
  if let some startup := s.options.cor0 then
    if maxClockFrequency < startup.cclkFrequency then
      throw (.clockOutOfRange startup.cclkFrequency)
    if s.device.family = some .spartan6 then throw (.noStartupOptions .spartan6)
  return s

/-- The settings in a file. -/
def ofToml (text : List Char) : Except SettingsError Settings :=
  match (Toml.parse? text).bind (ofDocument? Toml.rules) with
  | some s => s.validate
  | none => .error .malformed

end Settings

end FpgaBitstream
