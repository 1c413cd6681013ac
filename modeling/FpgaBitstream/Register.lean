import FpgaBitstream.Family
import FpgaBitstream.Text.Hex

/-!
# Configuration registers and commands

The configuration logic is driven through a small file of registers. A `Register f` is an address
in the file of family `f`; most addresses have a name, and a few have a `RegisterRole` that the
replay of a bitstream has to know. `Command` is a value of the command register.
-/

namespace FpgaBitstream

/-- What a write to a register does while frames are being loaded. -/
inductive RegisterRole where
  | crc
  | frameAddress
  | frameAddressMajor
  | frameAddressMinor
  | frameDataInput
  | multiFrameWrite
  | command
  | mask
  | control
  | idcode
  | other
  deriving DecidableEq, Repr

/-- The text of a role. -/
def RegisterRole.text : RegisterRole → String
  | crc => "Crc"
  | frameAddress => "FrameAddress"
  | frameAddressMajor => "FrameAddressMajor"
  | frameAddressMinor => "FrameAddressMinor"
  | frameDataInput => "FrameDataInput"
  | multiFrameWrite => "MultiFrameWrite"
  | command => "Command"
  | mask => "Mask"
  | control => "Control"
  | idcode => "Idcode"
  | other => "Other"

/-- The text of a code that has no name. -/
def unknownText (code : Word) : String := "UNKNOWN(0x" ++ Hex.padded 2 code.toNat ++ ")"

/-- A register of family `f`, by its address. -/
structure Register (f : Family) where
  raw : Word
  deriving DecidableEq, Repr, Inhabited

namespace Register

variable {f : Family}

/-- The names of the registers of the 7-series, UltraScale and UltraScale+. -/
def series7Names : List (Nat × String) :=
  [(0x00, "CRC"), (0x01, "FAR"), (0x02, "FDRI"), (0x03, "FDRO"), (0x04, "CMD"), (0x05, "CTL0"),
   (0x06, "MASK"), (0x07, "STAT"), (0x08, "LOUT"), (0x09, "COR0"), (0x0A, "MFWR"), (0x0B, "CBC"),
   (0x0C, "IDCODE"), (0x0D, "AXSS"), (0x0E, "COR1"), (0x10, "WBSTAR"), (0x11, "TIMER"),
   (0x13, "RBCRC_SW"), (0x16, "BOOTSTS"), (0x18, "CTL1"), (0x1F, "BSPI")]

/-- The names of the registers of Spartan-6. -/
def spartan6Names : List (Nat × String) :=
  [(0x00, "CRC"), (0x01, "FAR_MAJ"), (0x02, "FAR_MIN"), (0x03, "FDRI"), (0x04, "FDRO"),
   (0x05, "CMD"), (0x06, "CTL"), (0x07, "MASK"), (0x08, "STAT"), (0x09, "LOUT"), (0x0A, "COR1"),
   (0x0B, "COR2"), (0x0C, "PWRDN_REG"), (0x0D, "FLR"), (0x0E, "IDCODE"), (0x0F, "CWDT"),
   (0x10, "HC_OPT_REG"), (0x12, "CSBO"), (0x13, "GENERAL1"), (0x14, "GENERAL2"),
   (0x15, "GENERAL3"), (0x16, "GENERAL4"), (0x17, "GENERAL5"), (0x18, "MODE_REG"),
   (0x19, "PU_GWE"), (0x1A, "PU_GTS"), (0x1B, "MFWR"), (0x1C, "CCLK_FREQ"), (0x1D, "SEU_OPT"),
   (0x1E, "EXP_SIGN"), (0x1F, "RDBK_SIGN"), (0x20, "BOOTSTS"), (0x21, "EYE_MASK"),
   (0x22, "CBC_REG")]

/-- The name of a register, if its address is assigned. -/
def name? (r : Register f) : Option String :=
  match f with
  | .spartan6 => spartan6Names.lookup r.raw.toNat
  | _ => series7Names.lookup r.raw.toNat

/-- The text of a register: its name, or its address. -/
def text (r : Register f) : String := r.name?.getD (unknownText r.raw)

/-- The role of an address of the 7-series, UltraScale and UltraScale+. -/
def series7Role (raw : Word) : RegisterRole :=
  match raw.toNat with
  | 0x00 => .crc
  | 0x01 => .frameAddress
  | 0x02 => .frameDataInput
  | 0x04 => .command
  | 0x06 => .mask
  | 0x0A => .multiFrameWrite
  | 0x0C => .idcode
  | 0x18 => .control
  | _ => .other

/-- The role of an address of Spartan-6, whose frame address is split over two registers. -/
def spartan6Role (raw : Word) : RegisterRole :=
  match raw.toNat with
  | 0x00 => .crc
  | 0x01 => .frameAddressMajor
  | 0x02 => .frameAddressMinor
  | 0x03 => .frameDataInput
  | 0x05 => .command
  | 0x06 => .control
  | 0x07 => .mask
  | 0x0E => .idcode
  | 0x1B => .multiFrameWrite
  | _ => .other

/-- The role of a register. -/
def role (r : Register f) : RegisterRole :=
  match f with
  | .spartan6 => spartan6Role r.raw
  | _ => series7Role r.raw

/-- The register that holds the CRC check value. Padding and no-operation packets name it too. -/
def crc (f : Family) : Register f := ⟨0x00⟩

/-- The register that takes a frame address ahead of frame data. -/
def frameAddress (f : Family) : Register f := ⟨0x01⟩

/-- The frame data input register. -/
def frameDataInput : (f : Family) → Register f
  | .spartan6 => ⟨0x03⟩
  | _ => ⟨0x02⟩

/-- The command register. -/
def command : (f : Family) → Register f
  | .spartan6 => ⟨0x05⟩
  | _ => ⟨0x04⟩

/-- The mask register. -/
def mask : (f : Family) → Register f
  | .spartan6 => ⟨0x07⟩
  | _ => ⟨0x06⟩

/-- The device identifier register. -/
def idcode : (f : Family) → Register f
  | .spartan6 => ⟨0x0E⟩
  | _ => ⟨0x0C⟩

/-- The multiple-frame-write register. -/
def multiFrameWrite : (f : Family) → Register f
  | .spartan6 => ⟨0x1B⟩
  | _ => ⟨0x0A⟩

/-- The control register whose value can inhibit the start of a run. -/
def control : (f : Family) → Register f
  | .spartan6 => ⟨0x06⟩
  | _ => ⟨0x18⟩

/-- The startup options register, where the family has one in that layout. -/
def startupOptions? : (f : Family) → Option (Register f)
  | .spartan6 => none
  | _ => some ⟨0x09⟩

end Register

/-- A value of the command register. -/
structure Command where
  raw : Word
  deriving DecidableEq, Repr, Inhabited

namespace Command

/-- The command that does nothing. -/
def null : Command := ⟨0x00⟩

/-- Starts writing configuration data. -/
def writeConfig : Command := ⟨0x01⟩

/-- Starts writing one frame to many addresses. -/
def multiFrameWrite : Command := ⟨0x02⟩

/-- Announces the last frame. -/
def lastFrame : Command := ⟨0x03⟩

/-- Begins the startup sequence. -/
def start : Command := ⟨0x05⟩

/-- Resets the running CRC. -/
def resetCrc : Command := ⟨0x07⟩

/-- Switches the configuration clock frequency. -/
def switchClock : Command := ⟨0x09⟩

/-- Pulses the global restore signal. -/
def globalRestore : Command := ⟨0x0A⟩

/-- Ends the packet stream. -/
def desync : Command := ⟨0x0D⟩

/-- The names of the commands. -/
def names : List (Nat × String) :=
  [(0x00, "NULL"), (0x01, "WCFG"), (0x02, "MFW"), (0x03, "LFRM"), (0x04, "RCFG"), (0x05, "START"),
   (0x06, "RCAP"), (0x07, "RCRC"), (0x08, "AGHIGH"), (0x09, "SWITCH"), (0x0A, "GRESTORE"),
   (0x0B, "SHUTDOWN"), (0x0C, "GCAPTURE"), (0x0D, "DESYNC"), (0x0F, "IPROG"), (0x10, "CRCC"),
   (0x11, "LTIMER"), (0x12, "BSPI_READ"), (0x13, "FALL_EDGE")]

/-- The text of a command: its name, or its code. -/
def text (c : Command) : String := (names.lookup c.raw.toNat).getD (unknownText c.raw)

end Command

end FpgaBitstream
