import FpgaBitstream.FrameAddress
import FpgaBitstream.SortedMap

/-!
# Device topology

The frames of a device form a tree. A `Region` is a half of the device and holds rows, a `Row`
holds one bus for each block type, a `Bus` holds columns, and a `Column` holds a number of minor
frames. At each level `contains` says whether an address names a frame and `next?` gives the
address that follows; `ofAddresses` builds a level from the addresses of its frames, which have to
agree in the fields that select the level.
-/

namespace FpgaBitstream

/-- Why a level of the topology cannot be built. -/
inductive TopologyError where
  | emptyColumn
  | multipleColumns
  | multipleBuses
  | multipleRows
  | bothHalves
  | overlappingRanges
  deriving DecidableEq, Repr

/-- The text shown for a level that cannot be built. -/
def TopologyError.message : TopologyError → String
  | emptyColumn => "index out of bounds: the len is 0 but the index is 0"
  | multipleColumns => "frame addresses span multiple columns"
  | multipleBuses => "frame addresses span multiple buses"
  | multipleRows => "frame addresses span multiple rows"
  | bothHalves => "frame addresses span both halves"
  | overlappingRanges => "frame address ranges overlap"

variable {f : Family}

/-- Whether all elements of a list agree with the first in the given field. -/
def allAgree {α β : Type} [DecidableEq β] (field : α → β) : List α → Bool
  | [] => true
  | first :: rest => rest.all fun x => field x = field first

/-- The minor frames of one column. -/
structure Column where
  frameCount : Nat
  deriving DecidableEq, Repr, Inhabited

namespace Column

/-- The smallest column that holds the given addresses. -/
def ofAddresses (addresses : List (FrameAddress f)) : Except TopologyError Column :=
  if addresses.isEmpty then .error .emptyColumn
  else if allAgree (·.withMinor 0) addresses then
    .ok ⟨addresses.foldl (fun top a => max top a.minor) 0 + 1⟩
  else .error .multipleColumns

/-- Whether the minor frame of an address lies in the column. -/
def contains (column : Column) (a : FrameAddress f) : Bool := a.minor < column.frameCount

/-- The next minor frame. -/
def next? (column : Column) (a : FrameAddress f) : Option (FrameAddress f) :=
  if a.minor + 1 < column.frameCount then some (a.withMinor (a.minor + 1)) else none

end Column

/-- The columns of one block type in a row, by column number. -/
structure Bus where
  columns : SortedMap Nat Column
  deriving DecidableEq, Repr, Inhabited

namespace Bus

/-- The smallest bus that holds the given addresses. -/
def ofAddresses (addresses : List (FrameAddress f)) : Except TopologyError Bus :=
  if allAgree (fun a => (a.blockType, a.half, a.row)) addresses then
    return ⟨← (groupByKey (·.column) addresses).mapM fun _ group => Column.ofAddresses group⟩
  else .error .multipleBuses

/-- Whether an address names a column of the bus and a frame in it. -/
def contains (bus : Bus) (a : FrameAddress f) : Bool :=
  (bus.columns.get? a.column).any (·.contains a)

/-- The next frame: the next minor frame of the column, or the first of the next column. -/
def next? (bus : Bus) (a : FrameAddress f) : Option (FrameAddress f) := do
  let column ← bus.columns.get? a.column
  match column.next? a with
  | some next => return next
  | none =>
    let (number, _) ← bus.columns.next? a.column
    let next := FrameAddress.pack f a.blockType a.half a.row number 0
    if bus.contains next then return next else none

/-- The number of the lowest column. -/
def firstColumn? (bus : Bus) : Option Nat := bus.columns.toList.head?.map (·.1)

end Bus

/-- The buses of one row, by block type. -/
structure Row where
  buses : SortedMap BlockType Bus
  deriving DecidableEq, Repr, Inhabited

namespace Row

/-- The smallest row that holds the given addresses. -/
def ofAddresses (addresses : List (FrameAddress f)) : Except TopologyError Row :=
  if allAgree (fun a => (a.half, a.row)) addresses then
    return ⟨← (groupByKey (·.blockType) addresses).mapM fun _ group => Bus.ofAddresses group⟩
  else .error .multipleRows

/-- The bus of a block type. -/
def bus? (row : Row) (blockType : BlockType) : Option Bus := row.buses.get? blockType

/-- Whether an address names a frame on a bus of the row. -/
def contains (row : Row) (a : FrameAddress f) : Bool := (row.bus? a.blockType).any (·.contains a)

/-- The next frame on the same bus. -/
def next? (row : Row) (a : FrameAddress f) : Option (FrameAddress f) :=
  (row.bus? a.blockType).bind (·.next? a)

end Row

/-- The rows of one half of the device, by row number. -/
structure Region where
  rows : SortedMap Nat Row
  deriving DecidableEq, Repr, Inhabited

namespace Region

/-- The region without rows. -/
def empty : Region := ⟨SortedMap.empty⟩

/-- The smallest region that holds the given addresses. -/
def ofAddresses (addresses : List (FrameAddress f)) : Except TopologyError Region :=
  if allAgree (·.half) addresses then
    return ⟨← (groupByKey (·.row) addresses).mapM fun _ group => Row.ofAddresses group⟩
  else .error .bothHalves

/-- Whether the region has no rows. -/
def isEmpty (region : Region) : Bool := region.rows.isEmpty

/-- Whether an address names a frame of the region. -/
def contains (region : Region) (a : FrameAddress f) : Bool :=
  (region.rows.get? a.row).any (·.contains a)

/-- The first frame of a block type in a row of the region, if the row has that bus and the
address of its first column names a frame. -/
def firstInRow? (region : Region) (blockType : BlockType) (half : Half) (number : Nat)
    (row : Row) : Option (FrameAddress f) := do
  let bus ← row.bus? blockType
  let column ← bus.firstColumn?
  let a := FrameAddress.pack f blockType half number column 0
  if region.contains a then return a else none

/-- The next frame: the next on the same bus, or the first of the same block type in a later
row. -/
def next? (region : Region) (a : FrameAddress f) : Option (FrameAddress f) := do
  let row ← region.rows.get? a.row
  match row.next? a with
  | some next => return next
  | none =>
    (region.rows.after a.row).findSome? fun (number, row) =>
      region.firstInRow? a.blockType a.half number row

/-- The lowest frame of a block type. -/
def first? (region : Region) (blockType : BlockType) (half : Half) : Option (FrameAddress f) :=
  region.rows.toList.findSome? fun (number, row) => region.firstInRow? blockType half number row

end Region

end FpgaBitstream
