/-!
# Bit fields

Runs of neighbouring bits inside a machine word. Register layouts are written the way the
configuration user guides write them, `[top:bottom]` with both ends included and bit 0 the least
significant. `BitRange w` is such a run that lies inside a `w`-bit word; `BitRange.get` and
`BitRange.set` read and replace it. `BitRange.ofBounds` is the only way in from two arbitrary
numbers, and says which of the two conditions fails.
-/

namespace FpgaBitstream

/-- Why a bit or a pair of bounds does not name a part of a word. -/
inductive BitRangeError where
  | inverted (top bottom : Nat)
  | outside (bit width : Nat)
  deriving DecidableEq, Repr

/-- The text shown for a bad bit or range. -/
def BitRangeError.message : BitRangeError → String
  | .inverted top bottom => s!"inverted bit range [{top}:{bottom}]"
  | .outside bit width => s!"bit {bit} out of range for {width}-bit word"

/-- The word with only bit `bit` set. -/
def bitMask (w bit : Nat) : Except BitRangeError (BitVec w) :=
  if bit < w then .ok (BitVec.twoPow w bit) else .error (.outside bit w)

/-- The bits `top` down to `bottom` of a `w`-bit word. -/
structure BitRange (w : Nat) where
  top : Nat
  bottom : Nat
  bounds : bottom ≤ top ∧ top < w := by decide
  deriving DecidableEq, Repr

namespace BitRange

variable {w : Nat}

/-- The range `[top:bottom]`. An inverted pair is reported before one that leaves the word. -/
def ofBounds (w top bottom : Nat) : Except BitRangeError (BitRange w) :=
  if ordered : bottom ≤ top then
    if inside : top < w then .ok ⟨top, bottom, ⟨ordered, inside⟩⟩ else .error (.outside top w)
  else .error (.inverted top bottom)

/-- How many bits the range holds. -/
def width (r : BitRange w) : Nat := r.top - r.bottom + 1

/-- The word whose set bits are exactly those of the range. -/
def mask (r : BitRange w) : BitVec w :=
  (BitVec.allOnes w >>> (w - 1 - (r.top - r.bottom))) <<< r.bottom

/-- The bits of the range, moved down to bit 0. -/
def get (r : BitRange w) (v : BitVec w) : BitVec w := (v &&& r.mask) >>> r.bottom

/-- The word with the bits of the range replaced by the low bits of `field`; bits of `field` that
do not fit are dropped. -/
def set (r : BitRange w) (v field : BitVec w) : BitVec w :=
  (v &&& ~~~r.mask) ||| ((field <<< r.bottom) &&& r.mask)

/-- The bits of the range as a number. -/
def getNat (r : BitRange w) (v : BitVec w) : Nat := (r.get v).toNat

/-- The word with the bits of the range replaced by the low bits of a number. -/
def setNat (r : BitRange w) (v : BitVec w) (field : Nat) : BitVec w :=
  r.set v (BitVec.ofNat w field)

end BitRange

end FpgaBitstream
