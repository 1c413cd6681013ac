import FpgaBitstream.Topology

/-!
# Parts

A `Part f` is the frame address space of one device: its IDCODE, and either the two regions of its
topology or, for devices described by address intervals only, a list of disjoint ranges. `next?`
is the address to which the configuration logic advances; `walk` follows it from the first frame,
and `addresses` is the walk as long as it climbs, which for a sound part is all of it.
-/

namespace FpgaBitstream

/-- A half-open interval of raw addresses that is not empty. -/
structure AddressRange where
  start : Word
  stop : Word
  start_lt_stop : start < stop
  deriving DecidableEq, Repr

namespace AddressRange

/-- The range between two bounds, if it holds an address. -/
def ofBounds? (start stop : Word) : Option AddressRange :=
  if h : start < stop then some ⟨start, stop, h⟩ else none

theorem eq_of_ofBounds? {start stop : Word} {range : AddressRange}
    (h : ofBounds? start stop = some range) : range.start = start ∧ range.stop = stop := by
  unfold ofBounds? at h
  split at h
  · obtain rfl := Option.some.inj h
    exact ⟨rfl, rfl⟩
  · exact absurd h nofun

/-- Whether a raw address lies in the range. -/
def contains (range : AddressRange) (raw : Word) : Bool := range.start ≤ raw && raw < range.stop

end AddressRange

/-- Disjoint ranges in ascending order. -/
structure AddressRanges where
  toList : List AddressRange
  ascending : toList.Pairwise fun a b => a.stop ≤ b.start
  deriving DecidableEq, Repr

namespace AddressRanges

/-- The ranges between pairs of bounds, empty ones left out. They must not overlap. -/
def ofBounds (bounds : List (Word × Word)) : Except TopologyError AddressRanges :=
  let ranges := bounds.filterMap fun (start, stop) => AddressRange.ofBounds? start stop
  let sorted := ranges.mergeSort fun a b : AddressRange => a.start ≤ b.start
  if h : sorted.Pairwise fun a b : AddressRange => a.stop ≤ b.start then .ok ⟨sorted, h⟩
  else .error .overlappingRanges

/-- Whether a raw address lies in one of the ranges. -/
def contains (ranges : AddressRanges) (raw : Word) : Bool := ranges.toList.any (·.contains raw)

/-- The raw address after one of a list of ranges: the next in its range, or the start of the range
behind. -/
def nextIn? (raw : Word) : List AddressRange → Option Word
  | [] => none
  | range :: rest =>
    if range.contains raw then
      if raw + 1 < range.stop then some (raw + 1) else rest.head?.map (·.start)
    else nextIn? raw rest

end AddressRanges

/-- How the frames of a device are laid out. -/
inductive Layout where
  | regions (top bottom : Region)
  | ranges (ranges : AddressRanges)
  deriving DecidableEq, Repr

/-- A device of family `f`. -/
structure Part (f : Family) where
  idcode : Word
  layout : Layout
  deriving DecidableEq, Repr

namespace Part

variable {f : Family}

/-- The part that holds the given frames and, in each of their columns, all lower minor frames. -/
def ofAddresses (idcode : Word) (addresses : List (FrameAddress f)) :
    Except TopologyError (Part f) := do
  let top ← Region.ofAddresses (addresses.filter fun a => a.half = .top)
  let bottom ← Region.ofAddresses (addresses.filter fun a => a.half = .bottom)
  return ⟨idcode, .regions top bottom⟩

/-- The part that holds the frames of the given address ranges. -/
def ofRanges (idcode : Word) (bounds : List (Word × Word)) : Except TopologyError (Part f) := do
  return ⟨idcode, .ranges (← AddressRanges.ofBounds bounds)⟩

/-- Whether an address names a frame of the part. -/
def contains (part : Part f) (a : FrameAddress f) : Bool :=
  match part.layout with
  | .regions top bottom =>
    match a.half with
    | .top => top.contains a
    | .bottom => bottom.contains a
  | .ranges ranges => ranges.contains a.raw

/-- The first frame of a block type, in the top half before the bottom half. -/
def firstOfType? (top bottom : Region) (blockType : BlockType) : Option (FrameAddress f) :=
  (top.first? blockType .top).or (bottom.first? blockType .bottom)

/-- The first frame behind a half that has run out: the bottom half follows the top half of the same
block type, and after that the next block type, from the top half on. -/
def nextHalf? (top bottom : Region) (a : FrameAddress f) : Option (FrameAddress f) :=
  (if a.half = .top then bottom.first? a.blockType .bottom else none).or <|
    ([BlockType.blockRam, BlockType.cfgClb].filter fun candidate =>
      compare a.blockType candidate = .lt).findSome? (firstOfType? top bottom)

/-- The address to which the configuration logic advances. An address that names no frame of the
part has none. -/
def next? (part : Part f) (a : FrameAddress f) : Option (FrameAddress f) :=
  match part.layout with
  | .regions top bottom =>
    let region := match a.half with
      | .top => top
      | .bottom => bottom
    if region.contains a then (region.next? a).or (nextHalf? top bottom a) else none
  | .ranges ranges => (AddressRanges.nextIn? a.raw ranges.toList).map .mk

/-- The lowest frame of the part. -/
def first? (part : Part f) : Option (FrameAddress f) :=
  match part.layout with
  | .regions top bottom => BlockType.configurable.findSome? (firstOfType? top bottom)
  | .ranges ranges => ranges.toList.head?.map fun range => ⟨range.start⟩

/-- At most `limit` addresses from an optional one on, each the next of the one before. -/
def walkFrom (part : Part f) : Nat → Option (FrameAddress f) → List (FrameAddress f)
  | 0, _ => []
  | _, none => []
  | limit + 1, some a => a :: part.walkFrom limit (part.next? a)

/-- The first `limit` frames in the order of configuration. -/
def walk (part : Part f) (limit : Nat) : List (FrameAddress f) := part.walkFrom limit part.first?

/-- The addresses from `a` on while each is above the one before, behind `done`, which holds the
addresses before them in reverse. -/
def climbOnto (part : Part f) (done : List (FrameAddress f)) (a : FrameAddress f) :
    List (FrameAddress f) :=
  match part.next? a with
  | some next =>
    if a.raw < next.raw then part.climbOnto (a :: done) next else (a :: done).reverse
  | none => (a :: done).reverse
termination_by UInt32.size - a.raw.toNat
decreasing_by
  have : next.raw.toNat < UInt32.size := next.raw.isLt
  have : a.raw.toNat < next.raw.toNat := ‹a.raw < next.raw›
  omega

/-- The frames of the part in the order of configuration. -/
def addresses (part : Part f) : List (FrameAddress f) :=
  match part.first? with
  | some a => part.climbOnto [] a
  | none => []

end Part

end FpgaBitstream
