import FpgaBitstream.Packet

/-!
# The configuration CRC

The configuration logic folds every register write into a running CRC-32C. One update takes in 37
bits, the least significant first: the 32 bits of the data word and the 5 low bits of the register
address. A write of the reset command sets the value to zero, and writes to the CRC register
itself are left out. `insertCrcCheck` puts the expected value in front of the last command that
ends the stream, so that the device checks what it was sent.
-/

namespace FpgaBitstream

namespace Crc

/-- The polynomial of CRC-32C, its bits reversed. -/
def polynomial : Word := 0x82F63B78

/-- The number of bits in one update. -/
def updateBits : Nat := 37

/-- Shifts `count` bits of a message through the CRC register, which is held one place below the
polynomial's top bit. -/
def shiftIn : Nat → BitVec 64 → BitVec 64 → BitVec 64
  | 0, _, crc => crc
  | count + 1, message, crc =>
    let crc := if message.getLsbD 0 != crc.getLsbD 0 then
      crc ^^^ (polynomial.setWidth 64 <<< 1) else crc
    shiftIn count (message >>> 1) (crc >>> 1)

/-- The value after a data word was written to the register with the given address. -/
def update (register data previous : Word) : Word :=
  (shiftIn updateBits ((register.setWidth 64 <<< 32) ||| data.setWidth 64)
    (previous.setWidth 64)).setWidth 32

variable {f : Family}

/-- The value after a packet. -/
def updatePacket (value : Word) (p : Packet f) : Word :=
  if p.opcode = .write then
    match p.register.role with
    | .crc => value
    | .command =>
      if p.data.head? = some Command.resetCrc.raw then 0
      else p.data.foldl (fun value word => update p.register.raw word value) value
    | _ => p.data.foldl (fun value word => update p.register.raw word value) value
  else value

/-- The value at the end of a run of packets. -/
def ofPackets (packets : List (Packet f)) : Word := packets.foldl updatePacket 0

end Crc

namespace Packet

variable {f : Family}

/-- Whether a packet writes the command that ends the stream. -/
def isDesync (p : Packet f) : Bool :=
  p.opcode = .write && p.register = .command f && p.data.head? = some Command.desync.raw

/-- The packets before the last one that satisfies a test, and the packets from it on. -/
def splitAtLast? {α : Type} (test : α → Bool) (elements : List α) : Option (List α × List α) :=
  match elements.reverse.span fun x => !test x with
  | (_, []) => none
  | (after, found :: before) => some (before.reverse, found :: after.reverse)

/-- The packets with a write of the expected CRC in front of the last command that ends the stream,
and the value written. There is nothing to insert where no such command is found or the words are
not 32 bits wide. -/
def insertCrcCheck? (packets : List (Packet f)) : Option (Word × List (Packet f)) :=
  if f.hasWideWords then
    (splitAtLast? isDesync packets).map fun (before, after) =>
      let value := Crc.ofPackets before
      (value, before ++ write (.crc f) [value] :: after)
  else none

end Packet

end FpgaBitstream
