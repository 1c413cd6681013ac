import FpgaBitstream.BitField
import FpgaBitstream.Family

/-!
# Startup options

The configuration options register COR0 controls the startup sequence: which clock drives it and
in which phase each global signal is released. `StartupOptions` is its value taken apart;
`toRaw` and `ofRaw` go to and from the register value.
-/

namespace FpgaBitstream

/-- The clock that drives the startup sequence. -/
inductive StartupClock where
  | cclk
  | userClk
  | jtagClk
  deriving DecidableEq, Repr, Inhabited

namespace StartupClock

/-- All clocks. -/
def all : List StartupClock := [cclk, userClk, jtagClk]

/-- The name of a clock. -/
def name : StartupClock → String
  | cclk => "cclk"
  | userClk => "user_clk"
  | jtagClk => "jtag_clk"

/-- The field value of a clock. -/
def code : StartupClock → Nat
  | cclk => 0
  | userClk => 1
  | jtagClk => 2

/-- The clock of a field value. The reserved value stands for the configuration clock. -/
def ofCode : Nat → StartupClock
  | 1 => userClk
  | 2 => jtagClk
  | _ => cclk

end StartupClock

/-- The phase of the startup sequence in which a signal is released or waited for. -/
inductive StartupCycle where
  | phase1
  | phase2
  | phase3
  | phase4
  | phase5
  | phase6
  | done
  | keep
  deriving DecidableEq, Repr, Inhabited

namespace StartupCycle

/-- All cycles. -/
def all : List StartupCycle := [phase1, phase2, phase3, phase4, phase5, phase6, done, keep]

/-- The name of a cycle. -/
def name : StartupCycle → String
  | phase1 => "phase1"
  | phase2 => "phase2"
  | phase3 => "phase3"
  | phase4 => "phase4"
  | phase5 => "phase5"
  | phase6 => "phase6"
  | done => "done"
  | keep => "keep"

/-- The field value of a cycle. -/
def code : StartupCycle → Nat
  | phase1 => 0
  | phase2 => 1
  | phase3 => 2
  | phase4 => 3
  | phase5 => 4
  | phase6 => 5
  | done => 6
  | keep => 7

/-- The cycle of a field value. -/
def ofCode : Nat → StartupCycle
  | 0 => phase1
  | 1 => phase2
  | 2 => phase3
  | 3 => phase4
  | 4 => phase5
  | 5 => phase6
  | 6 => done
  | _ => keep

end StartupCycle

/-- The value of the configuration options register 0. -/
structure StartupOptions where
  /-- Shows the power-down status on INIT_B. -/
  powerDownStatus : Bool := false
  /-- Adds a pipeline stage to the DONE input. -/
  donePipeline : Bool := true
  /-- Drives DONE high instead of leaving it open. -/
  driveDone : Bool := false
  /-- Captures for readback once only. -/
  singleReadback : Bool := false
  /-- Selects the frequency of the configuration clock. -/
  cclkFrequency : Nat := 0
  startupClock : StartupClock := .cclk
  /-- When DONE is released. -/
  doneCycle : StartupCycle := .phase4
  /-- When the sequence waits for the DCI to match. -/
  dciMatchCycle : StartupCycle := .keep
  /-- When the sequence waits for the MMCMs to lock. -/
  mmcmLockCycle : StartupCycle := .keep
  /-- When GTS is released. -/
  gtsCycle : StartupCycle := .phase5
  /-- When GWE is asserted. -/
  gweCycle : StartupCycle := .phase6
  deriving DecidableEq, Repr, Inhabited

namespace StartupOptions

/-- The bit that shows the power-down status. -/
def powerDownStatusBit : BitRange 32 := { top := 27, bottom := 27 }

/-- The bit that adds a stage to the DONE input. -/
def donePipelineBit : BitRange 32 := { top := 25, bottom := 25 }

/-- The bit that drives DONE high. -/
def driveDoneBit : BitRange 32 := { top := 24, bottom := 24 }

/-- The bit that captures once only. -/
def singleReadbackBit : BitRange 32 := { top := 23, bottom := 23 }

/-- The bits that select the clock frequency. -/
def cclkFrequencyBits : BitRange 32 := { top := 22, bottom := 17 }

/-- The bits that select the clock of the sequence. -/
def startupClockBits : BitRange 32 := { top := 16, bottom := 15 }

/-- The bits with the phase that releases DONE. -/
def doneCycleBits : BitRange 32 := { top := 14, bottom := 12 }

/-- The bits with the phase that waits for the DCI. -/
def dciMatchCycleBits : BitRange 32 := { top := 11, bottom := 9 }

/-- The bits with the phase that waits for the MMCMs. -/
def mmcmLockCycleBits : BitRange 32 := { top := 8, bottom := 6 }

/-- The bits with the phase that releases GTS. -/
def gtsCycleBits : BitRange 32 := { top := 5, bottom := 3 }

/-- The bits with the phase that asserts GWE. -/
def gweCycleBits : BitRange 32 := { top := 2, bottom := 0 }

/-- The register value. A frequency too large for its field is cut. -/
def toRaw (o : StartupOptions) : Word :=
  let raw := powerDownStatusBit.setNat 0 o.powerDownStatus.toNat
  let raw := donePipelineBit.setNat raw o.donePipeline.toNat
  let raw := driveDoneBit.setNat raw o.driveDone.toNat
  let raw := singleReadbackBit.setNat raw o.singleReadback.toNat
  let raw := cclkFrequencyBits.setNat raw o.cclkFrequency
  let raw := startupClockBits.setNat raw o.startupClock.code
  let raw := doneCycleBits.setNat raw o.doneCycle.code
  let raw := dciMatchCycleBits.setNat raw o.dciMatchCycle.code
  let raw := mmcmLockCycleBits.setNat raw o.mmcmLockCycle.code
  let raw := gtsCycleBits.setNat raw o.gtsCycle.code
  gweCycleBits.setNat raw o.gweCycle.code

/-- The options of a register value. Reserved bits are dropped. -/
def ofRaw (raw : Word) : StartupOptions where
  powerDownStatus := powerDownStatusBit.getNat raw != 0
  donePipeline := donePipelineBit.getNat raw != 0
  driveDone := driveDoneBit.getNat raw != 0
  singleReadback := singleReadbackBit.getNat raw != 0
  cclkFrequency := cclkFrequencyBits.getNat raw
  startupClock := .ofCode (startupClockBits.getNat raw)
  doneCycle := .ofCode (doneCycleBits.getNat raw)
  dciMatchCycle := .ofCode (dciMatchCycleBits.getNat raw)
  mmcmLockCycle := .ofCode (mmcmLockCycleBits.getNat raw)
  gtsCycle := .ofCode (gtsCycleBits.getNat raw)
  gweCycle := .ofCode (gweCycleBits.getNat raw)

end StartupOptions

end FpgaBitstream
