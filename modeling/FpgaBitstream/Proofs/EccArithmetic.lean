import FpgaBitstream.Proofs.Ecc

/-!
# Arithmetic on the way to a code

The numbers on the way to a syndrome are not negative and fit in the words that they are computed
in, as long as frames are not too long.  `Checked.update?` gives up where an operation would drop a
bit or have no result; `Checked.update?_eq` says that it does not.
-/

namespace FpgaBitstream.Ecc

namespace Checked

/-! ## Operations that can fail -/

/-- The difference of two numbers, unless it is negative. -/
def sub? (a b : Nat) : Option Nat := if b ≤ a then some (a - b) else none

/-- A number as a word of `w` bits, unless it is too large. -/
def ofNat? (w number : Nat) : Option (BitVec w) :=
  if number < 2 ^ w then some (BitVec.ofNat w number) else none

/-- A word moved up, unless by its whole width or beyond its end. -/
def shiftLeft? {w : Nat} (word : BitVec w) (count : Nat) : Option (BitVec w) :=
  if count < w ∧ word.toNat * 2 ^ count < 2 ^ w then some (word <<< count) else none

/-- The sum of the syndromes of the set bits of a word. -/
def sumBits? {w : Nat} (syndrome? : Nat → Option (BitVec w)) (word : Word) (sum : BitVec w) :
    Option (BitVec w) :=
  (List.range 32).foldlM (fun sum bit => do
    if word.getLsbD bit then return sum ^^^ (← syndrome? bit) else return sum) sum

/-- A run of steps that do not fail. -/
theorem foldlM_eq_some {α β : Type} {step? : β → α → Option β} {step : β → α → β}
    {elements : List α} (h : ∀ x ∈ elements, ∀ s, step? s x = some (step s x)) (start : β) :
    elements.foldlM step? start = some (elements.foldl step start) := by
  induction elements generalizing start with
  | nil => rfl
  | cons x rest ih =>
    rw [List.foldlM_cons, h x List.mem_cons_self, List.foldl_cons, ← ih]
    · rfl
    · exact fun y hy => h y (List.mem_cons_of_mem _ hy)

theorem sumBits?_eq {w : Nat} {syndrome? : Nat → Option (BitVec w)} {syndrome : Nat → BitVec w}
    (h : ∀ bit < 32, syndrome? bit = some (syndrome bit)) (word : Word) (sum : BitVec w) :
    sumBits? syndrome? word sum = some (sumBits syndrome word sum) := by
  refine foldlM_eq_some (fun bit hbit sum => ?_) sum
  rw [h bit (List.mem_range.1 hbit)]
  cases word.getLsbD bit <;> rfl

/-! ## The 7-series -/

namespace Series7

open Ecc.Series7

/-- The syndrome of a bit. The numbers on the way to it are smaller. -/
def syndrome? (index bit : Nat) : Option Word := ofNat? 32 (index * 32 + offset index + bit)

/-- The running code after a word. -/
def addWord? (index : Nat) (word ecc : Word) : Option Word := do
  let ecc ← sumBits? (syndrome? index) (maskWord index word) ecc
  return if index = lastWord then withParity ecc else ecc

/-- The code of a frame. -/
def ofFrame? (frame : List Word) : Option Word :=
  frame.zipIdx.foldlM (fun ecc (word, index) => addWord? index word ecc) 0

theorem syndrome?_eq {index bit : Nat} (hindex : index < 2 ^ 26) (hbit : bit < 32) :
    syndrome? index bit = some (syndrome index bit) := by
  have hoffset := offset_le index
  have hbase : baseSyndrome index = BitVec.ofNat 32 (index * 32 + offset index) := rfl
  have hlt : index * 32 + offset index + bit < 2 ^ 32 := by omega
  rw [syndrome?, ofNat?, if_pos hlt, syndrome, hbase, BitVec.ofNat_add]

theorem ofFrame?_eq {frame : List Word} (h : frame.length ≤ 2 ^ 26) :
    ofFrame? frame = some (ofFrame frame) := by
  refine foldlM_eq_some (fun (word, index) hentry ecc => ?_) 0
  have hindex : index < 2 ^ 26 := Nat.lt_of_lt_of_le (List.snd_lt_of_mem_zipIdx hentry) h
  show addWord? index word ecc = some (addWord index word ecc)
  rw [addWord?, sumBits?_eq fun bit hbit => syndrome?_eq hindex hbit]
  rfl

/-- The frame with its code recomputed. -/
def update? (frame : List Word) : Option (List Word) :=
  match frame[eccWord]? with
  | some old => do
    let ecc ← ofFrame? frame
    return frame.set eccWord ((old &&& ~~~eccMask) ||| (ecc &&& eccMask))
  | none => some frame

theorem update?_eq_some {frame : List Word} (h : frame.length < 2 ^ 26) :
    update? frame = some (Ecc.Series7.update frame) := by
  rw [update?, Ecc.Series7.update, ofFrame?_eq (Nat.le_of_lt h)]
  cases frame[eccWord]? <;> rfl

end Series7

/-! ## The UltraScale families -/

namespace UltraScale

open Ecc.UltraScale

/-- The place of a nibble. -/
def nibblePlace? (words index bit : Nat) : Option (BitVec 12) := do
  let distance ← sub? (index + 255) (← sub? words 1)
  let place ← shiftLeft? (← ofNat? 12 distance) 3
  return place ||| (← ofNat? 12 (bit / 4))

/-- Twelve bits spread out so that each is the low bit of a nibble. -/
def spread? (place : BitVec 12) : Option (BitVec 48) :=
  (List.range 12).foldlM (fun sum i => do
    if place.getLsbD i then return sum ||| (← shiftLeft? 1 (4 * i)) else return sum) 0

/-- The syndrome of one bit of a frame. -/
def bitSyndrome? (words index bit : Nat) : Option (BitVec 48) := do
  let place ← nibblePlace? words index bit
  shiftLeft? (← spread? (withOddParity place)) (bit % 4)

/-- The code of a frame that holds it in the words from `e` on. -/
def ofFrame? (e : Nat) (frame : List Word) : Option (BitVec 48) :=
  frame.zipIdx.foldlM
    (fun ecc (word, index) =>
      sumBits? (bitSyndrome? frame.length index) (maskWord e index word) ecc) 0

theorem nibblePlace?_eq {words index bit : Nat} (hwords : words ≤ 256) (hindex : index < words)
    (hbit : bit < 32) : nibblePlace? words index bit = some (nibblePlace words index bit) := by
  have hlast : 1 ≤ words := by omega
  have hdistance : words - 1 ≤ index + 255 := by omega
  have hsmall : index + 255 - (words - 1) < 2 ^ 12 := by omega
  have hplace : 3 < 12 ∧
      (BitVec.ofNat 12 (index + 255 - (words - 1))).toNat * 2 ^ 3 < 2 ^ 12 := by
    rw [BitVec.toNat_ofNat]
    omega
  have hnibble : bit / 4 < 2 ^ 12 := by omega
  have hdifference : BitVec.ofNat 12 (index + 255 - (words - 1)) =
      BitVec.ofNat 12 (index + 256) - BitVec.ofNat 12 words := by
    refine BitVec.eq_of_toNat_eq ?_
    rw [BitVec.toNat_sub, BitVec.toNat_ofNat, BitVec.toNat_ofNat, BitVec.toNat_ofNat]
    omega
  rw [nibblePlace?, sub?, if_pos hlast]
  simp only [Option.bind_eq_bind, Option.bind_some]
  rw [sub?, if_pos hdistance, Option.bind_some, ofNat?, if_pos hsmall, Option.bind_some, shiftLeft?,
    if_pos hplace, Option.bind_some, ofNat?, if_pos hnibble, hdifference]
  rfl

theorem spread?_eq (place : BitVec 12) : spread? place = some (spread place) := by
  refine foldlM_eq_some (fun i hi sum => ?_) 0
  have hi : i < 12 := List.mem_range.1 hi
  have hshift : shiftLeft? (1 : BitVec 48) (4 * i) = some (BitVec.ofNat 48 (1 <<< (4 * i))) := by
    have hsmall : 4 * i < 48 ∧ (1 : BitVec 48).toNat * 2 ^ (4 * i) < 2 ^ 48 := by
      refine ⟨by omega, ?_⟩
      rw [show (1 : BitVec 48).toNat = 1 from rfl, Nat.one_mul]
      exact Nat.pow_lt_pow_right (by decide) (by omega)
    rw [shiftLeft?, if_pos hsmall]
    refine congrArg some (BitVec.eq_of_toNat_eq ?_)
    rw [BitVec.toNat_shiftLeft, BitVec.toNat_ofNat]
    rfl
  rw [hshift]
  cases place.getLsbD i <;> rfl

/-- Above the low bit of the last nibble there is room for three more places. -/
theorem toNat_spread_lt (place : BitVec 12) : (spread place).toNat < 2 ^ 45 := by
  refine Nat.lt_pow_two_of_testBit _ fun k hk => ?_
  rw [BitVec.testBit_toNat]
  by_cases hlt : k < 48
  · have hrem : ¬ k % 4 = 0 := by omega
    rw [getLsbD_spread place hlt, decide_eq_false hrem, Bool.false_and]
  · exact BitVec.getLsbD_of_ge _ _ (Nat.not_lt.1 hlt)

theorem bitSyndrome?_eq {words index bit : Nat} (hwords : words ≤ 256) (hindex : index < words)
    (hbit : bit < 32) : bitSyndrome? words index bit = some (bitSyndrome words index bit) := by
  have hrem : bit % 4 < 4 := Nat.mod_lt _ (by decide)
  have hspread := toNat_spread_lt (withOddParity (nibblePlace words index bit))
  have hroom : bit % 4 < 48 ∧
      (spread (withOddParity (nibblePlace words index bit))).toNat * 2 ^ (bit % 4) < 2 ^ 48 := by
    refine ⟨by omega, ?_⟩
    calc (spread (withOddParity (nibblePlace words index bit))).toNat * 2 ^ (bit % 4)
        < 2 ^ 45 * 2 ^ (bit % 4) := Nat.mul_lt_mul_of_pos_right hspread (Nat.two_pow_pos _)
      _ ≤ 2 ^ 45 * 2 ^ 3 :=
        Nat.mul_le_mul_left _ (Nat.pow_le_pow_right (by decide) (Nat.le_of_lt_succ hrem))
      _ = 2 ^ 48 := by decide
  rw [bitSyndrome?, nibblePlace?_eq hwords hindex hbit, Option.bind_eq_bind, Option.bind_some,
    spread?_eq, Option.bind_eq_bind, Option.bind_some, shiftLeft?, if_pos hroom]
  rfl

theorem ofFrame?_eq (e : Nat) {frame : List Word} (h : frame.length ≤ 256) :
    ofFrame? e frame = some (ofFrame e frame) := by
  refine foldlM_eq_some (fun (word, index) hentry ecc => ?_) 0
  have hindex : index < frame.length := List.snd_lt_of_mem_zipIdx hentry
  exact sumBits?_eq (fun bit hbit => bitSyndrome?_eq h hindex hbit) _ _

/-- The frame with its code recomputed. -/
def update? (e : Nat) (frame : List Word) : Option (List Word) :=
  match frame[e]?, frame[e + 1]? with
  | some old, some _ => do
    let ecc ← ofFrame? e frame
    return (frame.set e ((old &&& 0xFFFF0000) ||| (ecc >>> 32).setWidth 32)).set (e + 1)
      (ecc.setWidth 32)
  | _, _ => some frame

theorem update?_eq_some (e : Nat) {frame : List Word} (h : frame.length ≤ 256) :
    update? e frame = some (Ecc.UltraScale.update e frame) := by
  rw [update?, Ecc.UltraScale.update, ofFrame?_eq e h]
  cases frame[e]? <;> cases frame[e + 1]? <;> rfl

end UltraScale

/-! ## All families -/

/-- A frame with its code recomputed, unless the arithmetic fails. -/
def update? : Family → List Word → Option (List Word)
  | .series7, frame => Series7.update? frame
  | .ultraScale, frame => UltraScale.update? UltraScale.eccWord frame
  | .ultraScalePlus, frame => UltraScale.update? UltraScale.plusEccWord frame
  | .spartan6, frame => some frame

end Checked

/-- The lengths of frames for which the places of all bits can be computed. -/
def AdmitsLength : Family → Nat → Prop
  | .series7, n => n < 2 ^ 26
  | .ultraScale, n => n ≤ 256
  | .ultraScalePlus, n => n ≤ 256
  | .spartan6, _ => True

instance : ∀ f n, Decidable (AdmitsLength f n)
  | .series7, n => inferInstanceAs (Decidable (n < 2 ^ 26))
  | .ultraScale, n => inferInstanceAs (Decidable (n ≤ 256))
  | .ultraScalePlus, n => inferInstanceAs (Decidable (n ≤ 256))
  | .spartan6, _ => inferInstanceAs (Decidable True)

/-- **No operation fails**, and none drops a bit. -/
theorem Checked.update?_eq {f : Family} {frame : List Word} (h : AdmitsLength f frame.length) :
    Checked.update? f frame = some (update f frame) := by
  cases f with
  | series7 => exact Checked.Series7.update?_eq_some h
  | ultraScale => exact Checked.UltraScale.update?_eq_some _ h
  | ultraScalePlus => exact Checked.UltraScale.update?_eq_some _ h
  | spartan6 => rfl

/-- A frame with a word more has no place for its first word. -/
example : Checked.update? .ultraScale (1 :: List.replicate 256 0) = none := by decide +kernel

end FpgaBitstream.Ecc
