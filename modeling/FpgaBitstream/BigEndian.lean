/-!
# Big-endian words

A bitstream file is a run of bytes that the configuration logic reads as words, most significant
byte first. `BigEndianView n` reads a byte buffer as words of `n` bytes; the bytes after the last
whole word are no part of the view. `wordsToBytes` goes the other way.
-/

namespace FpgaBitstream

namespace BigEndian

variable {n : Nat}

/-- The word that the bytes spell, most significant first. -/
def decode (n : Nat) (bytes : List UInt8) : BitVec (8 * n) :=
  BitVec.ofNat (8 * n) (bytes.foldl (fun value byte => value * 256 + byte.toNat) 0)

/-- The `n` bytes of a word, most significant first. -/
def encode (n : Nat) (word : BitVec (8 * n)) : List UInt8 :=
  (List.range n).map fun i => UInt8.ofNat (word.toNat >>> (8 * (n - 1 - i)))

/-- The first `count` words of a byte buffer, put in front of `done`, which holds the words before
them in reverse. -/
def decodeOnto (n : Nat) (done : List (BitVec (8 * n))) : Nat → List UInt8 → List (BitVec (8 * n))
  | 0, _ => done.reverse
  | count + 1, bytes => decodeOnto n (decode n (bytes.take n) :: done) count (bytes.drop n)

/-- The bytes of a run of words. -/
def wordsToBytes (n : Nat) (words : List (BitVec (8 * n))) : List UInt8 :=
  words.flatMap (encode n)

end BigEndian

/-- A byte buffer read as big-endian words of `n` bytes. -/
structure BigEndianView (n : Nat) where
  bytes : List UInt8
  deriving DecidableEq, Repr

namespace BigEndianView

variable {n : Nat}

/-- The number of whole words. -/
def length (view : BigEndianView n) : Nat := view.bytes.length / n

/-- Whether the buffer holds no whole word. -/
def isEmpty (view : BigEndianView n) : Bool := view.length == 0

/-- The word at an index, if it lies in the view. -/
def get? (view : BigEndianView n) (index : Nat) : Option (BitVec (8 * n)) :=
  if index < view.length then
    some (BigEndian.decode n ((view.bytes.drop (index * n)).take n))
  else none

/-- The view with the word at an index replaced, if the index lies in the view. -/
def set? (view : BigEndianView n) (index : Nat) (word : BitVec (8 * n)) :
    Option (BigEndianView n) :=
  if index < view.length then
    some ⟨view.bytes.take (index * n) ++ BigEndian.encode n word ++
      view.bytes.drop (index * n + n)⟩
  else none

/-- The words of the view in order. -/
def toList (view : BigEndianView n) : List (BitVec (8 * n)) :=
  BigEndian.decodeOnto n [] view.length view.bytes

end BigEndianView

end FpgaBitstream
