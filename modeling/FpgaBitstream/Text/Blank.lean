/-!
# Blank characters

The characters with the Unicode property White_Space, and the trimming and splitting of text at
them.
-/

namespace FpgaBitstream.Text

/-- Whether a character has the Unicode property White_Space. -/
def isBlank (c : Char) : Bool :=
  let n := c.toNat
  (0x09 ≤ n && n ≤ 0x0D) || n == 0x20 || n == 0x85 || n == 0xA0 || n == 0x1680 ||
    (0x2000 ≤ n && n ≤ 0x200A) || n == 0x2028 || n == 0x2029 || n == 0x202F || n == 0x205F ||
    n == 0x3000

/-- The text without the blanks at its two ends. -/
def trim (text : List Char) : List Char :=
  ((text.dropWhile isBlank).reverse.dropWhile isBlank).reverse

/-- The pieces of a list between the elements that satisfy a test, put after `done`, which holds
the pieces before them in reverse; `piece` is the piece being read, in reverse. -/
def splitOnto {α : Type} (separates : α → Bool) (done : List (List α)) (piece : List α) :
    List α → List (List α)
  | [] => (piece.reverse :: done).reverse
  | x :: rest =>
    if separates x then splitOnto separates (piece.reverse :: done) [] rest
    else splitOnto separates done (x :: piece) rest

/-- The pieces of a list between the elements that satisfy a test. There is one more piece than
there are such elements. -/
def splitAt {α : Type} (separates : α → Bool) (text : List α) : List (List α) :=
  splitOnto separates [] [] text

end FpgaBitstream.Text
