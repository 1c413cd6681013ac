import FpgaBitstream.Family

/-!
# Frame ECC

Frames carry an error-correcting code over their own bits. A 7-series frame keeps 13 bits in the
low end of word 0x32; a frame of the UltraScale families keeps 48 bits in two words near its
middle; a Spartan-6 frame has none. Each code is a sum, in the sense of exclusive or, of one
syndrome for every set bit of the frame, the code's own bits counting as clear. `Ecc.update`
recomputes the code of a frame.
-/

namespace FpgaBitstream.Ecc

/-- The sum of the syndromes of the set bits of a word. -/
def sumBits {w : Nat} (syndrome : Nat → BitVec w) (word : Word) (sum : BitVec w) : BitVec w :=
  (List.range 32).foldl (fun sum bit => if word.getLsbD bit then sum ^^^ syndrome bit else sum) sum

namespace Series7

/-- The word of a frame that holds the code. -/
def eccWord : Nat := 0x32

/-- The bits of that word that hold the code. -/
def eccMask : Word := 0x1FFF

/-- The last word of a frame. -/
def lastWord : Nat := 0x64

/-- The syndrome of bit 0 of a word; the other bits follow upwards. -/
def baseSyndrome (index : Nat) : Word :=
  BitVec.ofNat 32 (index * 32 + (if index > 0x25 then 0x1360 else if index > 0x6 then 0x1340
    else 0x1320))

/-- The parity of the low twelve bits, moved to bit 12. -/
def parityBit (ecc : Word) : Word :=
  let parity := ecc &&& 0xFFF
  let parity := parity ^^^ (parity >>> 8)
  let parity := parity ^^^ (parity >>> 4)
  let parity := parity ^^^ (parity >>> 2)
  let parity := parity ^^^ (parity >>> 1)
  (parity &&& 1) <<< 12

/-- The running code after word `index`. Behind the last word its parity is added. -/
def addWord (index : Nat) (word ecc : Word) : Word :=
  let word := if index = eccWord then word &&& ~~~eccMask else word
  let ecc := sumBits (fun bit => baseSyndrome index + BitVec.ofNat 32 bit) word ecc
  if index = lastWord then ecc ^^^ parityBit ecc else ecc

/-- The code of a frame. -/
def ofFrame (frame : List Word) : Word :=
  frame.zipIdx.foldl (fun ecc (word, index) => addWord index word ecc) 0

/-- The frame with its code recomputed. A frame too short to hold the code is left alone. -/
def update (frame : List Word) : List Word :=
  match frame[eccWord]? with
  | some old => frame.set eccWord ((old &&& ~~~eccMask) ||| (ofFrame frame &&& eccMask))
  | none => frame

end Series7

namespace UltraScale

/-- The first of the two words that hold the code of an UltraScale frame. -/
def eccWord : Nat := 60

/-- The first of the two words that hold the code of an UltraScale+ frame. -/
def plusEccWord : Nat := 45

/-- The place of a nibble, counted so that the last word of every frame has the same place. -/
def nibblePlace (words index bit : Nat) : BitVec 12 :=
  ((BitVec.ofNat 12 (index + 256) - BitVec.ofNat 12 words) <<< 3) ||| BitVec.ofNat 12 (bit / 4)

/-- A place with its top bit adjusted so that the number of set bits is odd. -/
def withOddParity (place : BitVec 12) : BitVec 12 :=
  (List.range 11).foldl (fun place i => if place.getLsbD i then place ^^^ 0x800 else place)
    (place ^^^ 0x800)

/-- Twelve bits spread out so that each is the low bit of a nibble. -/
def spread (place : BitVec 12) : BitVec 48 :=
  (List.range 12).foldl
    (fun sum i => if place.getLsbD i then sum ||| (1 <<< (4 * i)) else sum) 0

/-- The syndrome of one bit of a frame. -/
def bitSyndrome (words index bit : Nat) : BitVec 48 :=
  spread (withOddParity (nibblePlace words index bit)) <<< (bit % 4)

/-- The bits of a word that are no part of the code. -/
def maskWord (eccWord index : Nat) (word : Word) : Word :=
  if index = eccWord then word &&& 0xFFFF0000
  else if index = eccWord + 1 then 0
  else word

/-- The code of a frame that holds it in the words from `eccWord` on. -/
def ofFrame (eccWord : Nat) (frame : List Word) : BitVec 48 :=
  frame.zipIdx.foldl
    (fun ecc (word, index) =>
      sumBits (bitSyndrome frame.length index) (maskWord eccWord index word) ecc) 0

/-- The frame with its code recomputed: the high 16 bits in the low half of word `eccWord`, the low
32 bits in the next word. A frame too short to hold the code is left alone. -/
def update (eccWord : Nat) (frame : List Word) : List Word :=
  match frame[eccWord]?, frame[eccWord + 1]? with
  | some old, some _ =>
    let ecc := ofFrame eccWord frame
    (frame.set eccWord ((old &&& 0xFFFF0000) ||| (ecc >>> 32).setWidth 32)).set (eccWord + 1)
      (ecc.setWidth 32)
  | _, _ => frame

end UltraScale

/-- A frame with its code recomputed. -/
def update : Family → List Word → List Word
  | .series7, frame => Series7.update frame
  | .ultraScale, frame => UltraScale.update UltraScale.eccWord frame
  | .ultraScalePlus, frame => UltraScale.update UltraScale.plusEccWord frame
  | .spartan6, frame => frame

end FpgaBitstream.Ecc
