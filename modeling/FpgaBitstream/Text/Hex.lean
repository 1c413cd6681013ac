/-!
# Hexadecimal numbers

Reading and writing of 32-bit numbers in base sixteen. `Hex.parse32?` takes the digits as the
hand-written inputs give them, with an optional `0x` in front; `Hex.padded` writes them in lower
case with leading zeros.
-/

namespace FpgaBitstream.Hex

/-- The value of a digit of base sixteen, in either case. -/
def digit? (c : Char) : Option Nat :=
  if '0' ≤ c && c ≤ '9' then some (c.toNat - '0'.toNat)
  else if 'a' ≤ c && c ≤ 'f' then some (c.toNat - 'a'.toNat + 10)
  else if 'A' ≤ c && c ≤ 'F' then some (c.toNat - 'A'.toNat + 10)
  else none

/-- The number that a run of digits continues from `value`. -/
def digitsFrom? (value : Nat) : List Char → Option Nat
  | [] => some value
  | c :: rest => (digit? c).bind fun d => digitsFrom? (value * 16 + d) rest

/-- The 32-bit number that digits spell, after an optional plus sign. There is at least one digit,
and leading zeros are free. -/
def digits32? (text : List Char) : Option (BitVec 32) :=
  let digits := match text with
    | '+' :: rest => rest
    | _ => text
  if digits.isEmpty then none
  else (digitsFrom? 0 digits).bind fun value =>
    if value < UInt32.size then some (BitVec.ofNat 32 value) else none

/-- The 32-bit number that digits spell, after an optional `0x` or `0X`. -/
def parse32? : List Char → Option (BitVec 32)
  | '0' :: 'x' :: rest => digits32? rest
  | '0' :: 'X' :: rest => digits32? rest
  | text => digits32? text

/-- The lower-case digit of a value below sixteen. -/
def digitChar (d : Nat) : Char :=
  if d < 10 then Char.ofNat ('0'.toNat + d) else Char.ofNat ('a'.toNat + (d - 10))

/-- The lowest `count` digits of a number. -/
def lowDigits (count n : Nat) : List Char :=
  (List.range count).map fun i => digitChar (n >>> (4 * (count - 1 - i)) % 16)

/-- The number of digits of a number, at least one. -/
def digitCount (n : Nat) : Nat := n.log2 / 4 + 1

/-- A number in lower case with leading zeros up to `count` digits. -/
def padded (count n : Nat) : String := String.ofList (lowDigits (max count (digitCount n)) n)

/-- A word as eight digits. -/
def word (w : BitVec 32) : String := padded 8 w.toNat

/-- A word as `0x` and eight digits. -/
def prefixed (w : BitVec 32) : String := "0x" ++ word w

end FpgaBitstream.Hex
