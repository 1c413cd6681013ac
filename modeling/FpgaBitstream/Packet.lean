import FpgaBitstream.BitField
import FpgaBitstream.FrameAddress
import FpgaBitstream.Register

/-!
# Configuration packets

A packet is a header and the words it carries to one register. A type-0 header is a word of
padding, a type-1 header names a register and a short word count, and a type-2 header has a long
word count. `HeaderLayout` says where the fields of a header word lie; `headerWords` writes a
header and `words` a whole packet. Reading them back is `Packet.take`, in the next module.
-/

namespace FpgaBitstream

/-- The kind of a packet header. -/
inductive HeaderType where
  | type0
  | type1
  | type2
  deriving DecidableEq, Repr, Inhabited

/-- The field value of a header type. -/
def HeaderType.code : HeaderType → Nat
  | type0 => 0
  | type1 => 1
  | type2 => 2

/-- What a packet does with its register. -/
inductive Opcode where
  | nop
  | read
  | write
  | reserved
  deriving DecidableEq, Repr, Inhabited

/-- The field value of an opcode. -/
def Opcode.code : Opcode → Nat
  | nop => 0
  | read => 1
  | write => 2
  | reserved => 3

/-- The opcode of a two-bit field value. -/
def Opcode.ofCode : Nat → Opcode
  | 0 => nop
  | 1 => read
  | 2 => write
  | _ => reserved

/-- Where the fields of a header word lie. Without `longCount`, a type-2 header names a register
of its own and two further words hold its count, the high half first; with it, the count is in the
header word and the register is that of the packet before. -/
structure HeaderLayout where
  headerType : BitRange 32
  opcode : BitRange 32
  register : BitRange 32
  shortCount : BitRange 32
  longCount : Option (BitRange 32)
  deriving DecidableEq, Repr

/-- The layout of 32-bit headers. -/
def HeaderLayout.wide : HeaderLayout where
  headerType := { top := 31, bottom := 29 }
  opcode := { top := 28, bottom := 27 }
  register := { top := 26, bottom := 13 }
  shortCount := { top := 10, bottom := 0 }
  longCount := some { top := 26, bottom := 0 }

/-- The layout of 16-bit headers. -/
def HeaderLayout.narrow : HeaderLayout where
  headerType := { top := 15, bottom := 13 }
  opcode := { top := 12, bottom := 11 }
  register := { top := 10, bottom := 5 }
  shortCount := { top := 4, bottom := 0 }
  longCount := none

/-- The header layout of a family. -/
def Family.headerLayout : Family → HeaderLayout
  | .spartan6 => .narrow
  | _ => .wide

/-- A configuration packet of family `f`. -/
structure Packet (f : Family) where
  header : HeaderType
  opcode : Opcode
  register : Register f
  data : List Word
  deriving DecidableEq, Repr

namespace Packet

variable {f : Family}

/-- The packet that does nothing. -/
def nop (f : Family) : Packet f := ⟨.type1, .nop, .crc f, []⟩

/-- A word of padding. -/
def zeroPad (f : Family) : Packet f := ⟨.type0, .nop, .crc f, []⟩

/-- A type-1 write of words to a register. -/
def write (register : Register f) (data : List Word) : Packet f :=
  ⟨.type1, .write, register, data⟩

/-- A type-2 write of words to a register. -/
def longWrite (register : Register f) (data : List Word) : Packet f :=
  ⟨.type2, .write, register, data⟩

/-- A write of a command. -/
def command (f : Family) (c : Command) : Packet f := write (.command f) [c.raw]

/-- The write that loads the frame address register. On Spartan-6 the two halves of the address
are two words. -/
def frameAddress (a : FrameAddress f) : Packet f :=
  match f with
  | .spartan6 => write (.frameAddress .spartan6) [a.raw >>> 16, a.raw &&& 0xFFFF]
  | f => write (.frameAddress f) [a.raw]

/-- The words of the header. Numbers too large for their fields are cut. -/
def headerWords (p : Packet f) : List Word :=
  let layout := f.headerLayout
  let count := BitVec.ofNat 32 p.data.length
  let word := layout.headerType.setNat 0 p.header.code
  match p.header, layout.longCount with
  | .type0, _ => [word]
  | .type1, _ =>
    [layout.shortCount.set
      (layout.register.set (layout.opcode.setNat word p.opcode.code) p.register.raw) count]
  | .type2, some range => [range.set (layout.opcode.setNat word p.opcode.code) count]
  | .type2, none =>
    [layout.register.set (layout.opcode.setNat word p.opcode.code) p.register.raw,
     count >>> 16, count &&& 0xFFFF]

/-- The words of a packet as they stand in a stream. -/
def words (p : Packet f) : List Word := p.headerWords ++ p.data

/-- The number of words that a packet takes in a stream. -/
def encodedLength (p : Packet f) : Nat := p.headerWords.length + p.data.length

/-- The text of a packet, with its first eight words. -/
def text (p : Packet f) : String :=
  match p.header, p.opcode with
  | .type0, _ => "[Zero-pad]"
  | _, .nop => "[NOP]"
  | header, opcode =>
    let kind := if header = .type1 then "Type1" else "Type2"
    let operation := match opcode with
      | .read => "Read"
      | .write => "Write"
      | _ => "Reserved"
    let shown := String.join ((p.data.take 8).map fun w => " " ++ Hex.word w)
    let more := if (p.data.drop 8).isEmpty then "" else " ..."
    s!"[{kind} {operation} {p.register.text} count={p.data.length}{shown}{more}]"

end Packet

end FpgaBitstream
