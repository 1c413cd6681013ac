import FpgaBitstream.Crc
import FpgaBitstream.Frames
import FpgaBitstream.StartupOptions

/-!
# Packages

A package is the packet stream of a whole bitstream: the family's boot sequence, one or more
sections of frame data, and the tail that starts the device and ends the stream. `fullPackage`
writes one payload from the first frame of the part on, `partialPackage` any number of segments.
-/

namespace FpgaBitstream

/-- Adjustments to a family's fixed sequences. -/
structure PackageOptions where
  /-- Takes the place of the startup options of the boot sequence, where the family has them. -/
  cor0 : Option StartupOptions := none
  /-- Writes the expected CRC before the end of the stream. -/
  crcCheck : Bool := false
  deriving DecidableEq, Repr, Inhabited

namespace Packet

variable {f : Family}

/-- A number of packets that do nothing. -/
def nops (f : Family) (count : Nat) : List (Packet f) := List.replicate count (nop f)

/-- A write of one word to the register with the given address. -/
def writeTo (f : Family) (register value : Word) : Packet f := write ⟨register⟩ [value]

end Packet

/-- The two halves of a word, the high half first. -/
def splitHalves (value : Word) : List Word := [value >>> 16, value &&& 0xFFFF]

namespace Package

open Packet

/-- The boot sequence of the 7-series, UltraScale and UltraScale+. Only the 7-series clears the
trigger of the readback CRC in it. -/
def wideBoot (f : Family) (idcode : Word) : List (Packet f) :=
  -- TIMER and WBSTAR: no watchdog and no warm boot address
  [nop f, writeTo f 0x11 0, writeTo f 0x10 0, command f .null, nop f, command f .resetCrc, nop f,
    nop f] ++
  -- RBCRC_SW
  (if f = .series7 then [writeTo f 0x13 0] else []) ++
  -- COR0 and COR1
  [writeTo f 0x09 ({} : StartupOptions).toRaw, writeTo f 0x0E 0, write (.idcode f) [idcode],
    command f .switchClock, nop f,
    -- CTL0, two bits of it enabled by the mask, then CTL1, unchanged under an empty mask
    write (.mask f) [0x401], writeTo f 0x05 0x501, write (.mask f) [0], write (.control f) [0]] ++
  nops f 8

/-- The boot sequence of Spartan-6. -/
def narrowBoot (f : Family) (idcode : Word) : List (Packet f) :=
  -- FLR, COR1 and COR2
  [command f .resetCrc, nop f, writeTo f 0x0D 0x0380, writeTo f 0x0A 0x3D00,
    writeTo f 0x0B 0x09EE, write (.idcode f) (splitHalves idcode), write (.mask f) [0x00CF],
    write (.control f) [0x0081]] ++
  nops f 17 ++
  -- clock frequency, power-down, eye mask, options, watchdog, wake-up and mode
  [writeTo f 0x1C 0x3CC8, writeTo f 0x0C 0x0881, writeTo f 0x21 0x0000, writeTo f 0x10 0x001F,
    writeTo f 0x0F 0xFFFF, writeTo f 0x19 0x0005, writeTo f 0x1A 0x0004, writeTo f 0x18 0x0100,
    -- the five general purpose registers
    writeTo f 0x13 0x0000, writeTo f 0x14 0x0000, writeTo f 0x15 0x0000, writeTo f 0x16 0x0000,
    writeTo f 0x17 0x0000,
    -- SEU_OPT and the expected readback signature
    writeTo f 0x1D 0x1BE2, write ⟨0x1E⟩ (splitHalves 0), nop f, nop f]

/-- The packets before the frame data: timers, options, the IDCODE check, mask and control. -/
def boot (f : Family) (idcode : Word) : List (Packet f) :=
  match f with
  | .spartan6 => narrowBoot .spartan6 idcode
  | f => wideBoot f idcode

/-- The packets that write a segment. -/
def frameData {f : Family} (segment : Segment f) : List (Packet f) :=
  match f with
  | .spartan6 =>
    [.frameAddress segment.start, command .spartan6 .writeConfig,
      longWrite (.frameDataInput .spartan6) segment.payload] ++ nops .spartan6 24
  | f =>
    [.frameAddress segment.start, command f .writeConfig, nop f, write (.frameDataInput f) [],
      longWrite (.frameDataInput f) segment.payload]

/-- The frame address written after the start command. -/
def startupFrameAddress : Family → Word
  | .series7 => 0x03BE0000
  | _ => 0x07FC0000

/-- The number of packets that do nothing at the end of a package. -/
def trailingNops : Family → Nat
  | .ultraScalePlus => 160
  | _ => 400

/-- The tail of the 7-series, UltraScale and UltraScale+. -/
def wideTail (f : Family) : List (Packet f) :=
  [command f .resetCrc, nop f, nop f, command f .globalRestore, nop f, command f .lastFrame] ++
  nops f 100 ++
  [command f .start, nop f, write (.frameAddress f) [startupFrameAddress f],
    write (.mask f) [0x501], writeTo f 0x05 0x501, command f .resetCrc, nop f, nop f,
    command f .desync] ++
  nops f (trailingNops f)

/-- The tail of Spartan-6. -/
def narrowTail (f : Family) : List (Packet f) :=
  [command f .globalRestore, command f .lastFrame] ++ nops f 4 ++
  [command f .globalRestore, command f .start, write (.mask f) [0x00FF],
    write (.control f) [0x0081], write (.crc f) [0x0039, 0xE423], command f .desync] ++
  nops f 14

/-- The packets that start the device and end the stream. -/
def tail : (f : Family) → List (Packet f)
  | .spartan6 => narrowTail .spartan6
  | f => wideTail f

/-- The packets with the value of every write to the startup options register replaced. -/
def overrideStartup {f : Family} (options : StartupOptions) (packets : List (Packet f)) :
    List (Packet f) :=
  match Register.startupOptions? f with
  | some register => packets.map fun p =>
    if p.opcode = .write ∧ p.register = register then write register [options.toRaw] else p
  | none => packets

end Package

open Package in
/-- The package that writes each segment at its own frame address. -/
def partialPackage {f : Family} (part : Part f) (segments : List (Segment f))
    (options : PackageOptions) : List (Packet f) :=
  let start := boot f part.idcode
  let start := match options.cor0 with
    | some startup => overrideStartup startup start
    | none => start
  let packets := start ++ segments.flatMap frameData ++ tail f
  if options.crcCheck then
    match Packet.insertCrcCheck? packets with
    | some (_, checked) => checked
    | none => packets
  else packets

/-- The package that writes a payload from the first frame of the part on. -/
def fullPackage {f : Family} (part : Part f) (payload : List Word) (options : PackageOptions) :
    List (Packet f) :=
  partialPackage part [⟨part.first?.getD ⟨0⟩, payload⟩] options

end FpgaBitstream
