import FpgaBitstream.Document.Json
import FpgaBitstream.Geometry

/-!
# Geometry files

The JSON form of part geometries. Each level of a geometry has a pair of functions, `ofDocument?`
and `toDocument`, that go to and from the document of that level. `PartGeometry.ofJson?` reads a
file and `PartGeometry.toJson` writes one.
-/

namespace FpgaBitstream

open Document

/-- The block type that a document names. Only a reserved one has a code of its own. -/
def BlockType.ofDocument? (value : Document) : Option BlockType :=
  (variant? Json.rules BlockType.configurable BlockType.text value).or <|
    match value with
    | .table [(some "RESERVED", code)] => (nat32? code).map .reserved
    | _ => none

/-- The document of a block type. -/
def BlockType.toDocument : BlockType → Document
  | .reserved code => record [("RESERVED", nat code)]
  | named => string named.text

/-- The family of a canonical name. -/
def Family.ofDocument? (rules : DecodeRules) : Document → Option Family :=
  variant? rules Family.all Family.name

namespace ColumnGeometry

/-- The column that a document describes. -/
def ofDocument? (value : Document) : Option ColumnGeometry := do
  match ← fields? Json.rules ["column", "frame_count"] value with
  | [column, frameCount] => return ⟨← required nat32? column, ← required nat32? frameCount⟩
  | _ => none

/-- The document of a column. -/
def toDocument (g : ColumnGeometry) : Document :=
  record [("column", nat g.column), ("frame_count", nat g.frameCount)]

end ColumnGeometry

namespace BusGeometry

/-- The bus that a document describes. -/
def ofDocument? (value : Document) : Option BusGeometry := do
  match ← fields? Json.rules ["block_type", "columns"] value with
  | [blockType, columns] =>
    return ⟨← required BlockType.ofDocument? blockType,
      ← required (list? ColumnGeometry.ofDocument?) columns⟩
  | _ => none

/-- The document of a bus. -/
def toDocument (g : BusGeometry) : Document :=
  record [("block_type", g.blockType.toDocument), ("columns", .list (g.columns.map (·.toDocument)))]

end BusGeometry

namespace RowGeometry

/-- The row that a document describes. -/
def ofDocument? (value : Document) : Option RowGeometry := do
  match ← fields? Json.rules ["row", "buses"] value with
  | [row, buses] =>
    return ⟨← required nat32? row, ← required (list? BusGeometry.ofDocument?) buses⟩
  | _ => none

/-- The document of a row. -/
def toDocument (g : RowGeometry) : Document :=
  record [("row", nat g.row), ("buses", .list (g.buses.map (·.toDocument)))]

end RowGeometry

namespace RegionGeometry

/-- The rows of a half. -/
def rows? : Option Document → Option (List RowGeometry) :=
  withDefault [] (list? RowGeometry.ofDocument?)

/-- The two halves that a document describes. -/
def ofDocument? (value : Document) : Option RegionGeometry := do
  match ← fields? Json.rules ["top", "bottom"] value with
  | [top, bottom] => return ⟨← rows? top, ← rows? bottom⟩
  | _ => none

/-- The document of the two halves. -/
def toDocument (g : RegionGeometry) : Document :=
  record [
    ("top", .list (g.top.map (·.toDocument))),
    ("bottom", .list (g.bottom.map (·.toDocument)))]

end RegionGeometry

namespace RangeGeometry

/-- The range that a document describes. -/
def ofDocument? (value : Document) : Option RangeGeometry := do
  match ← fields? Json.rules ["begin", "end"] value with
  | [start, stop] => return ⟨← required text? start, ← required text? stop⟩
  | _ => none

/-- The document of a range. -/
def toDocument (g : RangeGeometry) : Document :=
  record [("begin", string g.start), ("end", string g.stop)]

end RangeGeometry

namespace PartGeometry

/-- The geometry that a document describes. -/
def ofDocument? (value : Document) : Option PartGeometry := do
  match ← fields? Json.rules ["idcode", "architecture", "global_clock_regions", "ranges"] value with
  | [idcode, family, regions, ranges] =>
    return {
      idcode := ← required text? idcode
      family := ← required (Family.ofDocument? Json.rules) family
      regions := ← withDefault none (nullable RegionGeometry.ofDocument?) regions
      ranges := ← withDefault [] (list? RangeGeometry.ofDocument?) ranges }
  | _ => none

/-- The document of a geometry. Regions and ranges are left out where there are none. -/
def toDocument (g : PartGeometry) : Document :=
  record <|
    [("idcode", string g.idcode), ("architecture", string g.family.name)] ++
    (g.regions.toList.map fun regions => ("global_clock_regions", regions.toDocument)) ++
    (if g.ranges.isEmpty then [] else [("ranges", .list (g.ranges.map (·.toDocument)))])

/-- The geometry in a file. -/
def ofJson? (text : List Char) : Option PartGeometry := (Json.parse? text).bind ofDocument?

/-- The file of a geometry. -/
def toJson (g : PartGeometry) : String := Json.pretty g.toDocument

end PartGeometry

end FpgaBitstream
