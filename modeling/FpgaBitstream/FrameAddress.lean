import FpgaBitstream.BitField
import FpgaBitstream.Family
import FpgaBitstream.Text.Hex

/-!
# Frame addresses

A frame address is a register value whose fields select a block type, a half of the device, a
row, a column and a minor frame within the column. `AddressLayout` says where the fields lie;
`FrameAddress f` is a raw value read through the layout of family `f`. Addresses are ordered as
numbers, which is the order of (block type, half, row, column, minor) wherever the bits outside
the fields are clear.
-/

namespace FpgaBitstream

/-- The kind of configuration block that a frame belongs to. The third is CFG_CLB, or IOB on
Spartan-6; all other codes are reserved. -/
inductive BlockType where
  | clbIoClk
  | blockRam
  | cfgClb
  | reserved (code : Nat)
  deriving DecidableEq, Repr, Inhabited

namespace BlockType

/-- The block type of a field value. -/
def ofCode : Nat → BlockType
  | 0 => clbIoClk
  | 1 => blockRam
  | 2 => cfgClb
  | n => reserved n

/-- The field value of a block type. -/
def code : BlockType → Nat
  | clbIoClk => 0
  | blockRam => 1
  | cfgClb => 2
  | reserved n => n

/-- The block types that carry configuration frames, in the order of their addresses. -/
def configurable : List BlockType := [clbIoClk, blockRam, cfgClb]

/-- The place of a block type in their order: the named ones, then the reserved ones by code. -/
def rank : BlockType → Nat
  | clbIoClk => 0
  | blockRam => 1
  | cfgClb => 2
  | reserved n => n + 3

theorem rank_injective {a b : BlockType} (h : a.rank = b.rank) : a = b := by
  cases a <;> cases b <;> simp_all [rank]

instance : Ord BlockType := ⟨fun a b => compare a.rank b.rank⟩

instance : Std.TransOrd BlockType := inferInstanceAs (Std.TransCmp (compareOn rank))

instance : Std.LawfulEqOrd BlockType where
  compare_self {a} := show compare a.rank a.rank = .eq from Std.ReflCmp.compare_self
  eq_of_compare {a b} h :=
    rank_injective (Std.LawfulEqCmp.eq_of_compare (show compare a.rank b.rank = .eq from h))

/-- The text of a block type. -/
def text : BlockType → String
  | clbIoClk => "CLB_IO_CLK"
  | blockRam => "BLOCK_RAM"
  | cfgClb => "CFG_CLB"
  | reserved n => s!"RESERVED({n})"

end BlockType

/-- A half of the device. -/
inductive Half where
  | top
  | bottom
  deriving DecidableEq, Repr, Inhabited

namespace Half

/-- The text of a half. -/
def text : Half → String
  | top => "top"
  | bottom => "bottom"

/-- The field value of a half. -/
def code : Half → Nat
  | top => 0
  | bottom => 1

end Half

/-- Where the fields of a frame address lie. A layout without a half selector has a top half
only. -/
structure AddressLayout where
  blockType : BitRange 32
  half : Option (BitRange 32)
  row : BitRange 32
  column : BitRange 32
  minor : BitRange 32
  deriving DecidableEq, Repr

/-- The layout of the 7-series, UltraScale and UltraScale+. -/
def AddressLayout.series7 : AddressLayout where
  blockType := { top := 25, bottom := 23 }
  half := some { top := 22, bottom := 22 }
  row := { top := 21, bottom := 17 }
  column := { top := 16, bottom := 7 }
  minor := { top := 6, bottom := 0 }

/-- The layout of Spartan-6. -/
def AddressLayout.spartan6 : AddressLayout where
  blockType := { top := 31, bottom := 28 }
  half := none
  row := { top := 27, bottom := 24 }
  column := { top := 23, bottom := 16 }
  minor := { top := 9, bottom := 0 }

/-- The address layout of a family. -/
def Family.addressLayout : Family → AddressLayout
  | .spartan6 => .spartan6
  | _ => .series7

/-- A value of the frame address register of family `f`. -/
structure FrameAddress (f : Family) where
  raw : Word
  deriving DecidableEq, Repr, Inhabited

namespace FrameAddress

variable {f : Family}

instance : Ord (FrameAddress f) := ⟨fun a b => compare a.raw b.raw⟩

instance : Std.TransOrd (FrameAddress f) := inferInstanceAs (Std.TransCmp (compareOn raw))

instance : Std.LawfulEqOrd (FrameAddress f) where
  compare_self {a} := show compare a.raw a.raw = .eq from Std.ReflCmp.compare_self
  eq_of_compare {a b} h := by
    have same : a.raw = b.raw :=
      Std.LawfulEqCmp.eq_of_compare (show compare a.raw b.raw = .eq from h)
    cases a; cases b; cases same; rfl

/-- The block type that an address selects. -/
def blockType (a : FrameAddress f) : BlockType :=
  .ofCode (f.addressLayout.blockType.getNat a.raw)

/-- The half that an address selects. -/
def half (a : FrameAddress f) : Half :=
  match f.addressLayout.half with
  | some range => if range.getNat a.raw = 0 then .top else .bottom
  | none => .top

/-- The row within the half. -/
def row (a : FrameAddress f) : Nat := f.addressLayout.row.getNat a.raw

/-- The column within the row. -/
def column (a : FrameAddress f) : Nat := f.addressLayout.column.getNat a.raw

/-- The minor frame within the column. -/
def minor (a : FrameAddress f) : Nat := f.addressLayout.minor.getNat a.raw

/-- The address with the given fields, each cut to the width of its field. -/
def pack (f : Family) (blockType : BlockType) (half : Half) (row column minor : Nat) :
    FrameAddress f :=
  let layout := f.addressLayout
  let raw := layout.blockType.setNat 0 blockType.code
  let raw := match layout.half with
    | some range => range.setNat raw half.code
    | none => raw
  let raw := layout.row.setNat raw row
  let raw := layout.column.setNat raw column
  ⟨layout.minor.setNat raw minor⟩

/-- The address with another minor frame. The bits outside the fields are cleared. -/
def withMinor (a : FrameAddress f) (minor : Nat) : FrameAddress f :=
  pack f a.blockType a.half a.row a.column minor

/-- Whether going from one address to the next leaves the row, the half or the block type. Two
frames of padding separate such runs in the frame data. -/
def crossesRow (current next : FrameAddress f) : Bool :=
  current.blockType != next.blockType || current.half != next.half || current.row != next.row

/-- The text of an address. -/
def text (a : FrameAddress f) : String :=
  "[" ++ Hex.word a.raw ++ " type=" ++ a.blockType.text ++ " half=" ++ a.half.text ++
    s!" row={a.row} column={a.column} minor={a.minor}]"

end FrameAddress

end FpgaBitstream
