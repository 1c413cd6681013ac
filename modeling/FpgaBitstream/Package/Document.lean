import FpgaBitstream.Document
import FpgaBitstream.Package

/-!
# Package options in documents

The options of a package as they stand in settings: every field may be missing and then has its
default. The functions take the rules of the format in which the document is written.
-/

namespace FpgaBitstream

open Document

/-- The clock that a document names. -/
def StartupClock.ofDocument? (rules : DecodeRules) : Document → Option StartupClock :=
  variant? rules all name

/-- The cycle that a document names. -/
def StartupCycle.ofDocument? (rules : DecodeRules) : Document → Option StartupCycle :=
  variant? rules all name

namespace StartupOptions

/-- The names of the options, in their order. -/
def fieldNames : List String :=
  ["power_down_status", "done_pipeline", "drive_done", "single_readback", "cclk_frequency",
    "startup_clock", "done_cycle", "dci_match_cycle", "mmcm_lock_cycle", "gts_cycle", "gwe_cycle"]

/-- The options that a document gives. -/
def ofDocument? (rules : DecodeRules) (value : Document) : Option StartupOptions := do
  let defaults : StartupOptions := {}
  let cycle := fun (value : StartupCycle) => withDefault value (StartupCycle.ofDocument? rules)
  match ← fields? rules fieldNames value with
  | [powerDownStatus, donePipeline, driveDone, singleReadback, cclkFrequency, startupClock,
      doneCycle, dciMatchCycle, mmcmLockCycle, gtsCycle, gweCycle] =>
    return {
      powerDownStatus := ← withDefault defaults.powerDownStatus bool? powerDownStatus
      donePipeline := ← withDefault defaults.donePipeline bool? donePipeline
      driveDone := ← withDefault defaults.driveDone bool? driveDone
      singleReadback := ← withDefault defaults.singleReadback bool? singleReadback
      cclkFrequency := ← withDefault defaults.cclkFrequency nat32? cclkFrequency
      startupClock :=
        ← withDefault defaults.startupClock (StartupClock.ofDocument? rules) startupClock
      doneCycle := ← cycle defaults.doneCycle doneCycle
      dciMatchCycle := ← cycle defaults.dciMatchCycle dciMatchCycle
      mmcmLockCycle := ← cycle defaults.mmcmLockCycle mmcmLockCycle
      gtsCycle := ← cycle defaults.gtsCycle gtsCycle
      gweCycle := ← cycle defaults.gweCycle gweCycle }
  | _ => none

/-- The document of the options, with every field. -/
def toDocument (o : StartupOptions) : Document :=
  record [
    ("power_down_status", .bool o.powerDownStatus),
    ("done_pipeline", .bool o.donePipeline),
    ("drive_done", .bool o.driveDone),
    ("single_readback", .bool o.singleReadback),
    ("cclk_frequency", nat o.cclkFrequency),
    ("startup_clock", string o.startupClock.name),
    ("done_cycle", string o.doneCycle.name),
    ("dci_match_cycle", string o.dciMatchCycle.name),
    ("mmcm_lock_cycle", string o.mmcmLockCycle.name),
    ("gts_cycle", string o.gtsCycle.name),
    ("gwe_cycle", string o.gweCycle.name)]

end StartupOptions

/-- The options that a document gives. -/
def PackageOptions.ofDocument? (rules : DecodeRules) (value : Document) :
    Option PackageOptions := do
  match ← fields? rules ["cor0", "crc_check"] value with
  | [cor0, crcCheck] =>
    return {
      cor0 := ← withDefault none (nullable (StartupOptions.ofDocument? rules)) cor0
      crcCheck := ← withDefault false bool? crcCheck }
  | _ => none

end FpgaBitstream
