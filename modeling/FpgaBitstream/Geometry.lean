import FpgaBitstream.Part
import FpgaBitstream.Text.Hex

/-!
# Part geometry

A geometry describes the frame address space of a device the way a user writes it down: a tree of
rows, buses and columns, or a list of address ranges, with hexadecimal numbers as text.
`PartGeometry.toPart` checks a geometry and builds the part, and `PartGeometry.ofPart` describes a
part.
-/

namespace FpgaBitstream

/-- One column of a bus. -/
structure ColumnGeometry where
  column : Nat
  frameCount : Nat
  deriving DecidableEq, Repr

/-- One bus of a row. -/
structure BusGeometry where
  blockType : BlockType
  columns : List ColumnGeometry
  deriving DecidableEq, Repr

/-- One row of a half. -/
structure RowGeometry where
  row : Nat
  buses : List BusGeometry
  deriving DecidableEq, Repr

/-- The rows above and below the centre line. -/
structure RegionGeometry where
  top : List RowGeometry := []
  bottom : List RowGeometry := []
  deriving DecidableEq, Repr

/-- A half-open range of raw addresses in hexadecimal. -/
structure RangeGeometry where
  start : String
  stop : String
  deriving DecidableEq, Repr

/-- The description of a device. -/
structure PartGeometry where
  idcode : String
  family : Family
  regions : Option RegionGeometry := none
  ranges : List RangeGeometry := []
  deriving DecidableEq, Repr

/-- What is wrong with the layout of a geometry. -/
inductive LayoutError where
  | regionsAndRanges
  | bottomHalf
  | noFrames (row : Nat) (blockType : BlockType) (column : Nat)
  | columnTwice (row : Nat) (blockType : BlockType) (column : Nat)
  | noColumns (row : Nat) (blockType : BlockType)
  | busTwice (row : Nat) (blockType : BlockType)
  | noBuses (row : Nat)
  | rowTwice (row : Nat)
  | inverted (start : String)
  | overlap (first second : Word)
  deriving DecidableEq, Repr

/-- The text shown for a faulty layout. -/
def LayoutError.message : LayoutError → String
  | regionsAndRanges => "both global_clock_regions and ranges are present"
  | bottomHalf => "spartan6 frame addresses have no bottom half"
  | noFrames row blockType column => s!"row {row} {blockType.text} column {column} has no frames"
  | columnTwice row blockType column => s!"row {row} {blockType.text} lists column {column} twice"
  | noColumns row blockType => s!"row {row} {blockType.text} has no columns"
  | busTwice row blockType => s!"row {row} lists {blockType.text} twice"
  | noBuses row => s!"row {row} has no buses"
  | rowTwice row => s!"row {row} listed twice"
  | inverted start => s!"range {start} ends before it begins"
  | overlap first second =>
    s!"ranges starting at {Hex.prefixed first} and {Hex.prefixed second} overlap"

/-- A field of a geometry that holds a hexadecimal number. -/
inductive HexField where
  | idcode
  | rangeStart
  | rangeStop
  deriving DecidableEq, Repr

/-- The name of a hexadecimal field. -/
def HexField.name : HexField → String
  | idcode => "idcode"
  | rangeStart => "ranges.begin"
  | rangeStop => "ranges.end"

/-- Why a geometry describes no part. -/
inductive GeometryError where
  | invalidHex (field : HexField) (text : String)
  | otherFamily (expected found : Family)
  | empty
  | layout (e : LayoutError)
  deriving DecidableEq, Repr

/-- The text shown for a geometry that describes no part. -/
def GeometryError.message : GeometryError → String
  | invalidHex field text => s!"invalid hex value '{text}' in field '{field.name}'"
  | otherFamily expected found => s!"geometry is for {found.name}, expected {expected.name}"
  | empty => "geometry describes no frame addresses"
  | layout e => "invalid geometry layout: " ++ e.message

/-- The number in a hexadecimal field. -/
def HexField.parse (field : HexField) (text : String) : Except GeometryError Word :=
  match Hex.parse32? text.toList with
  | some value => .ok value
  | none => .error (.invalidHex field text)

/-- Adds an entry to a map, and fails if its key is taken. -/
def SortedMap.insertNew {κ α ε : Type} [Ord κ] [Std.TransOrd κ] (m : SortedMap κ α) (key : κ)
    (value : α) (taken : ε) : Except ε (SortedMap κ α) :=
  if m.contains key then .error taken else .ok (m.insert key value)

/-- The bus of a description, in the given row. -/
def BusGeometry.toBus (row : Nat) (g : BusGeometry) : Except LayoutError Bus := do
  let columns ← g.columns.foldlM (fun columns column =>
    if column.frameCount = 0 then .error (.noFrames row g.blockType column.column)
    else columns.insertNew column.column ⟨column.frameCount⟩
      (LayoutError.columnTwice row g.blockType column.column)) SortedMap.empty
  if columns.isEmpty then throw (.noColumns row g.blockType)
  return ⟨columns⟩

/-- The row of a description. -/
def RowGeometry.toRow (g : RowGeometry) : Except LayoutError Row := do
  let buses ← g.buses.foldlM (fun buses bus => do
    buses.insertNew bus.blockType (← bus.toBus g.row)
      (LayoutError.busTwice g.row bus.blockType)) SortedMap.empty
  if buses.isEmpty then throw (.noBuses g.row)
  return ⟨buses⟩

/-- The region of a list of rows. -/
def Region.ofGeometry (rows : List RowGeometry) : Except LayoutError Region := do
  return ⟨← rows.foldlM (fun rows row => do
    rows.insertNew row.row (← row.toRow) (LayoutError.rowTwice row.row)) SortedMap.empty⟩

/-- The bounds of a range. -/
def RangeGeometry.bounds (g : RangeGeometry) : Except GeometryError (Word × Word) := do
  let start ← HexField.rangeStart.parse g.start
  let stop ← HexField.rangeStop.parse g.stop
  if stop < start then throw (.layout (.inverted g.start))
  return (start, stop)

/-- The first two neighbours in a list of ranges of which the first reaches into the second. -/
def firstOverlap? : List (Word × Word) → Option (Word × Word)
  | a :: b :: rest => if b.1 < a.2 then some (a.1, b.1) else firstOverlap? (b :: rest)
  | _ => none

theorem firstOverlap?_eq_none {bounds : List (Word × Word)}
    (sorted : bounds.Pairwise fun a b => a.1 ≤ b.1) (none : firstOverlap? bounds = none) :
    bounds.Pairwise fun a b => a.2 ≤ b.1 := by
  fun_induction firstOverlap? bounds with
  | case1 => exact absurd none nofun
  | case2 a b rest inOrder ih =>
    have ⟨first, sorted⟩ := List.pairwise_cons.1 sorted
    refine List.pairwise_cons.2 ⟨fun c mem => ?_, ih sorted none⟩
    have reaches : a.2 ≤ b.1 := BitVec.not_lt.1 inOrder
    rcases List.mem_cons.1 mem with rfl | mem
    · exact reaches
    · exact BitVec.le_trans reaches ((List.pairwise_cons.1 sorted).1 c mem)
  | case3 bounds short =>
    match bounds, short with
    | [], _ => exact .nil
    | [a], _ => exact List.pairwise_singleton _ a
    | a :: b :: rest, short => exact absurd rfl (short a b rest)

/-- The ranges between pairs of bounds that follow one another, empty ones left out. -/
def AddressRanges.ofSorted (bounds : List (Word × Word))
    (apart : bounds.Pairwise fun a b => a.2 ≤ b.1) : AddressRanges :=
  ⟨bounds.filterMap fun (start, stop) => AddressRange.ofBounds? start stop,
    List.pairwise_filterMap.2 <| apart.imp fun le _ ha _ hb => by
      rw [(AddressRange.eq_of_ofBounds? ha).2, (AddressRange.eq_of_ofBounds? hb).1]
      exact le⟩

/-- Whether the first pair of bounds starts no later than the second. -/
def startsNoLater (a b : Word × Word) : Bool := a.1 ≤ b.1

/-- Pairs of bounds in the order of their starts. -/
def sortBounds (bounds : List (Word × Word)) : List (Word × Word) := bounds.mergeSort startsNoLater

theorem startsNoLater_trans (a b c : Word × Word) (ab : startsNoLater a b)
    (bc : startsNoLater b c) : startsNoLater a c :=
  decide_eq_true (BitVec.le_trans (of_decide_eq_true ab) (of_decide_eq_true bc))

theorem startsNoLater_total (a b : Word × Word) : startsNoLater a b || startsNoLater b a := by
  simp [startsNoLater, BitVec.le_total]

theorem sortBounds_sorted (bounds : List (Word × Word)) :
    (sortBounds bounds).Pairwise fun a b => a.1 ≤ b.1 :=
  (List.pairwise_mergeSort startsNoLater_trans startsNoLater_total bounds).imp of_decide_eq_true

/-- The layout of a list of ranges. They must not overlap, and a range without addresses must not
lie inside another. -/
def AddressRanges.ofGeometry (ranges : List RangeGeometry) :
    Except GeometryError AddressRanges := do
  let bounds ← ranges.mapM (·.bounds)
  let sorted := sortBounds bounds
  match h : firstOverlap? sorted with
  | some (first, second) => throw (.layout (.overlap first second))
  | none => return .ofSorted sorted (firstOverlap?_eq_none (sortBounds_sorted bounds) h)

namespace PartGeometry

/-- The part that a geometry describes, for a reader who wants one of family `f`. -/
def toPart (f : Family) (g : PartGeometry) : Except GeometryError (Part f) := do
  if g.family ≠ f then throw (.otherFamily f g.family)
  let idcode ← HexField.idcode.parse g.idcode
  match g.regions, g.ranges with
  | some _, _ :: _ => throw (.layout .regionsAndRanges)
  | some regions, [] =>
    if f = .spartan6 ∧ regions.bottom ≠ [] then throw (.layout .bottomHalf)
    let top ← (Region.ofGeometry regions.top).mapError .layout
    let bottom ← (Region.ofGeometry regions.bottom).mapError .layout
    if top.isEmpty && bottom.isEmpty then throw .empty
    return ⟨idcode, .regions top bottom⟩
  | none, [] => throw .empty
  | none, ranges => return ⟨idcode, .ranges (← AddressRanges.ofGeometry ranges)⟩

end PartGeometry

/-- The description of a bus. -/
def BusGeometry.ofBus (blockType : BlockType) (bus : Bus) : BusGeometry :=
  ⟨blockType, bus.columns.toList.map fun (number, column) => ⟨number, column.frameCount⟩⟩

/-- The description of a row. -/
def RowGeometry.ofRow (number : Nat) (row : Row) : RowGeometry :=
  ⟨number, row.buses.toList.map fun (blockType, bus) => .ofBus blockType bus⟩

/-- The descriptions of the rows of a region. -/
def Region.toGeometry (region : Region) : List RowGeometry :=
  region.rows.toList.map fun (number, row) => .ofRow number row

/-- The description of a part. -/
def PartGeometry.ofPart {f : Family} (part : Part f) : PartGeometry :=
  let g : PartGeometry := { idcode := Hex.prefixed part.idcode, family := f }
  match part.layout with
  | .regions top bottom => { g with regions := some ⟨top.toGeometry, bottom.toGeometry⟩ }
  | .ranges ranges =>
    { g with ranges := ranges.toList.map fun range =>
        ⟨Hex.prefixed range.start, Hex.prefixed range.stop⟩ }

end FpgaBitstream
