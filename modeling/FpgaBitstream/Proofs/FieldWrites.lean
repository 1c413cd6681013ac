import FpgaBitstream.Proofs.BitField

/-!
# Writing fields

A field that is written twice holds what was written last, one that is written with what it holds
leaves the word as it is, and ranges that share no bit can be written in either order.  All of this
is read off bit by bit (`getLsbD_set`).

An operation on a field moves bits by numbers that are computed from its bounds.  `Operation.run` is
such an operation in steps, in which a negative difference, and a shift by the width of the word or
more, have no result.  Within the word no step fails (`Operation.run_range`); otherwise the bounds
are refused before the first step, for being the wrong way round (`Operation.run_of_lt`) before they
are for leaving the word (`Operation.run_of_ge`).  The laws and the steps together are `fieldLaws`.
-/

namespace FpgaBitstream
namespace BitRange

variable {w : Nat} {r s : BitRange w}

/-! ## The bits that a field is written to -/

/-- Whether a bit lies in a range. -/
def Holds (r : BitRange w) (i : Nat) : Prop := r.bottom ≤ i ∧ i ≤ r.top

theorem getLsbD_set_of_holds {i : Nat} (h : r.Holds i) (v field : BitVec w) :
    (r.set v field).getLsbD i = field.getLsbD (i - r.bottom) := by
  rw [getLsbD_set]
  exact if_pos h

/-- **The bits outside of a range** are kept. -/
theorem getLsbD_set_of_not_holds {i : Nat} (h : ¬ r.Holds i) (v field : BitVec w) :
    (r.set v field).getLsbD i = v.getLsbD i := by
  rw [getLsbD_set]
  exact if_neg h

/-- **What was written last** stays. -/
theorem set_set (r : BitRange w) (v x y : BitVec w) : r.set (r.set v x) y = r.set v y := by
  apply BitVec.eq_of_getLsbD_eq
  intro i _
  by_cases h : r.Holds i
  · rw [getLsbD_set_of_holds h, getLsbD_set_of_holds h]
  · rw [getLsbD_set_of_not_holds h, getLsbD_set_of_not_holds h, getLsbD_set_of_not_holds h]

/-- A range that is written with what it holds stays as it is. -/
theorem set_get (r : BitRange w) (v : BitVec w) : r.set v (r.get v) = v := by
  have hwidth := r.width_add_bottom
  apply BitVec.eq_of_getLsbD_eq
  intro i _
  by_cases h : r.Holds i
  · obtain ⟨hbottom, htop⟩ := h
    have hi : i - r.bottom < r.width := by omega
    rw [getLsbD_set_of_holds ⟨hbottom, htop⟩, getLsbD_get, Nat.add_sub_cancel' hbottom,
      decide_eq_true hi, Bool.true_and]
  · rw [getLsbD_set_of_not_holds h]

/-! ## Two ranges -/

theorem Disjoint.symm (h : r.Disjoint s) : s.Disjoint r := Or.symm h

/-- No bit lies in both of two disjoint ranges. -/
theorem Disjoint.not_holds (h : r.Disjoint s) {i : Nat} (hr : r.Holds i) : ¬ s.Holds i := by
  rintro ⟨hbottom, htop⟩
  obtain ⟨hbottom', htop'⟩ := hr
  rcases h with h | h <;> omega

/-- **Disjoint ranges** can be written in either order. -/
theorem set_comm (h : r.Disjoint s) (v x y : BitVec w) :
    r.set (s.set v y) x = s.set (r.set v x) y := by
  apply BitVec.eq_of_getLsbD_eq
  intro i _
  by_cases hr : r.Holds i
  · have hs := h.not_holds hr
    rw [getLsbD_set_of_holds hr, getLsbD_set_of_not_holds hs, getLsbD_set_of_holds hr]
  · rw [getLsbD_set_of_not_holds hr]
    by_cases hs : s.Holds i
    · rw [getLsbD_set_of_holds hs, getLsbD_set_of_holds hs]
    · rw [getLsbD_set_of_not_holds hs, getLsbD_set_of_not_holds hs, getLsbD_set_of_not_holds hr]

/-! ## Bounds -/

theorem ofBounds_range (r : BitRange w) : ofBounds w r.top r.bottom = .ok r := by
  rw [ofBounds, dif_pos r.bottom_le_top, dif_pos r.top_lt]

/-- Bounds that are the wrong way round are refused as such, also where they leave the word. -/
theorem ofBounds_of_lt {top bottom : Nat} (h : top < bottom) :
    ofBounds w top bottom = .error (.inverted top bottom) := by
  rw [ofBounds, dif_neg (Nat.not_le.2 h)]

theorem ofBounds_of_ge {top bottom : Nat} (h : bottom ≤ top) (hw : w ≤ top) :
    ofBounds w top bottom = .error (.outside top w) := by
  rw [ofBounds, dif_pos h, dif_neg (Nat.not_lt.2 hw)]

/-! ## Steps that can fail -/

/-- Why an operation on the bits of a word fails: they are no part of the word, or a step on the way
has no result. -/
inductive Fault where
  | bounds (error : BitRangeError)
  | difference (a b : Nat)
  | shift (count width : Nat)
  deriving DecidableEq, Repr

namespace Checked

/-- The difference of two numbers, which must not be negative. -/
def sub (a b : Nat) : Except Fault Nat :=
  if b ≤ a then .ok (a - b) else .error (.difference a b)

/-- A word moved up by less than its width. Bits that leave it at the top are dropped. -/
def shiftLeft (v : BitVec w) (count : Nat) : Except Fault (BitVec w) :=
  if count < w then .ok (v <<< count) else .error (.shift count w)

/-- A word moved down by less than its width. -/
def shiftRight (v : BitVec w) (count : Nat) : Except Fault (BitVec w) :=
  if count < w then .ok (v >>> count) else .error (.shift count w)

/-- The word with one bit set. -/
def bitMask (w bit : Nat) : Except Fault (BitVec w) :=
  if bit < w then shiftLeft (BitVec.ofNat w 1) bit else .error (.bounds (.outside bit w))

/-- The word with the bits between two bounds set. -/
def mask (w top bottom : Nat) : Except Fault (BitVec w) :=
  if bottom ≤ top then
    if top < w then do
      let unused ← sub (← sub w 1) (← sub top bottom)
      shiftLeft (← shiftRight (BitVec.allOnes w) unused) bottom
    else .error (.bounds (.outside top w))
  else .error (.bounds (.inverted top bottom))

theorem sub_of_le {a b : Nat} (h : b ≤ a) : sub a b = .ok (a - b) := if_pos h

theorem shiftLeft_of_lt {count : Nat} (h : count < w) (v : BitVec w) :
    shiftLeft v count = .ok (v <<< count) := if_pos h

theorem shiftRight_of_lt {count : Nat} (h : count < w) (v : BitVec w) :
    shiftRight v count = .ok (v >>> count) := if_pos h

theorem bitMask_of_lt {bit : Nat} (h : bit < w) : bitMask w bit = .ok (BitVec.twoPow w bit) := by
  rw [bitMask, if_pos h, shiftLeft_of_lt h]
  rfl

/-- The bounds of a range make both differences positive and both shifts shorter than the word. -/
theorem mask_range (r : BitRange w) : mask w r.top r.bottom = .ok r.mask := by
  have hordered := r.bottom_le_top
  have hinside := r.top_lt
  have hlast : 1 ≤ w := by omega
  have hunused : r.top - r.bottom ≤ w - 1 := by omega
  have hdown : w - 1 - (r.top - r.bottom) < w := by omega
  have hup : r.bottom < w := by omega
  rw [mask, if_pos hordered, if_pos hinside, sub_of_le hlast, sub_of_le hordered]
  show (sub (w - 1) (r.top - r.bottom) >>= _) = _
  rw [sub_of_le hunused]
  show (shiftRight _ _ >>= _) = _
  rw [shiftRight_of_lt hdown]
  exact shiftLeft_of_lt hup _

end Checked

/-- What can be done with the bits of a range. -/
inductive Operation (w : Nat) where
  | mask
  | get (v : BitVec w)
  | set (v field : BitVec w)
  deriving DecidableEq, Repr

namespace Operation

/-- The result on a range. -/
def on (r : BitRange w) : Operation w → BitVec w
  | mask => r.mask
  | get v => r.get v
  | set v field => r.set v field

/-- The operation on the bits between two bounds, in steps. -/
def run (top bottom : Nat) : Operation w → Except Fault (BitVec w)
  | mask => Checked.mask w top bottom
  | get v => do Checked.shiftRight (v &&& (← Checked.mask w top bottom)) bottom
  | set v field => do
    let mask ← Checked.mask w top bottom
    return (v &&& ~~~mask) ||| ((← Checked.shiftLeft field bottom) &&& mask)

/-- **Within the word no step fails.** -/
theorem run_range (r : BitRange w) (op : Operation w) :
    op.run r.top r.bottom = .ok (op.on r) := by
  have hbottom : r.bottom < w := Nat.lt_of_le_of_lt r.bottom_le_top r.top_lt
  cases op with
  | mask => exact Checked.mask_range r
  | get v =>
    rw [run, Checked.mask_range]
    exact Checked.shiftRight_of_lt hbottom _
  | set v field =>
    rw [run, Checked.mask_range, Checked.shiftLeft_of_lt hbottom]
    rfl

/-- Bounds without a mask have no operation at all. -/
theorem run_of_mask_eq_error {top bottom : Nat} {fault : Fault}
    (h : Checked.mask w top bottom = .error fault) (op : Operation w) :
    op.run top bottom = .error fault := by
  cases op <;> rw [run, h] <;> rfl

theorem run_of_lt {top bottom : Nat} (h : top < bottom) (op : Operation w) :
    op.run top bottom = .error (.bounds (.inverted top bottom)) := by
  apply run_of_mask_eq_error
  rw [Checked.mask, if_neg (Nat.not_le.2 h)]

theorem run_of_ge {top bottom : Nat} (h : bottom ≤ top) (hw : w ≤ top) (op : Operation w) :
    op.run top bottom = .error (.bounds (.outside top w)) := by
  apply run_of_mask_eq_error
  rw [Checked.mask, if_pos h, if_neg (Nat.not_lt.2 hw)]

end Operation

/-- **The laws of bit fields.**  A field that was written reads back with the bits that do not fit
dropped, the last of two writes stays, writing what is there changes nothing, and no write changes a
bit outside of its range.  Disjoint ranges can be written in either order and read past each other's
writes.  Within the word no operation has a step that fails; bounds that are the wrong way round are
refused as such, and others only if they leave the word. -/
theorem fieldLaws (w : Nat) :
    (∀ (r : BitRange w) (v x y : BitVec w),
      (r.get (r.set v x)).toNat = x.toNat % 2 ^ (r.top - r.bottom + 1) ∧
        r.set (r.set v x) y = r.set v y ∧ r.set v (r.get v) = v ∧
        ∀ i, ¬ r.Holds i → (r.set v x).getLsbD i = v.getLsbD i) ∧
    (∀ (r s : BitRange w) (v x y : BitVec w), r.Disjoint s →
      r.set (s.set v y) x = s.set (r.set v x) y ∧
        r.get (s.set v y) = r.get v ∧ s.get (r.set v x) = s.get v) ∧
    (∀ (op : Operation w) (r : BitRange w),
      ofBounds w r.top r.bottom = .ok r ∧ op.run r.top r.bottom = .ok (op.on r)) ∧
    (∀ (op : Operation w) (top bottom : Nat), top < bottom →
      ofBounds w top bottom = .error (.inverted top bottom) ∧
        op.run top bottom = .error (.bounds (.inverted top bottom))) ∧
    (∀ (op : Operation w) (top bottom : Nat), bottom ≤ top → w ≤ top →
      ofBounds w top bottom = .error (.outside top w) ∧
        op.run top bottom = .error (.bounds (.outside top w))) ∧
    ∀ bit, (bit < w → bitMask w bit = .ok (BitVec.twoPow w bit) ∧
        Checked.bitMask w bit = .ok (BitVec.twoPow w bit)) ∧
      (w ≤ bit → bitMask w bit = .error (.outside bit w) ∧
        Checked.bitMask w bit = .error (.bounds (.outside bit w))) := by
  refine ⟨fun r v x y => ?_, fun r s v x y h => ?_, fun op r => ?_, fun op top bottom h => ?_,
    fun op top bottom h hw => ?_, fun bit => ⟨fun h => ?_, fun h => ?_⟩⟩
  · exact ⟨r.getNat_set v x, set_set r v x y, set_get r v,
      fun _ hi => getLsbD_set_of_not_holds hi v x⟩
  · exact ⟨set_comm h v x y, get_set_of_disjoint h v y, get_set_of_disjoint h.symm v x⟩
  · exact ⟨ofBounds_range r, op.run_range r⟩
  · exact ⟨ofBounds_of_lt h, op.run_of_lt h⟩
  · exact ⟨ofBounds_of_ge h hw, op.run_of_ge h hw⟩
  · exact ⟨if_pos h, Checked.bitMask_of_lt h⟩
  · exact ⟨if_neg (Nat.not_lt.2 h), if_neg (Nat.not_lt.2 h)⟩

/-- The highest bit of a word and all bits below it, with fields that are too large for them; bounds
that are the wrong way round and outside of the word at once; and the first bit outside. -/
theorem fieldLaws_topBit :
    set { top := 15, bottom := 15 } (set { top := 14, bottom := 0 } (0x1234 : BitVec 16) 0xFFFF)
        0xFFFD =
      set { top := 14, bottom := 0 } (set { top := 15, bottom := 15 } 0x1234 0xFFFD) 0xFFFF ∧
    (set { top := 15, bottom := 15 } (0x1234 : BitVec 16) 0xFFFD).getLsbD 9 = true ∧
    Operation.run 20 31 (.get (0x1234 : BitVec 16)) = .error (.bounds (.inverted 20 31)) ∧
    Operation.run 16 0 (.set (0x1234 : BitVec 16) 1) = .error (.bounds (.outside 16 16)) ∧
    Checked.bitMask 16 15 = .ok 0x8000 ∧
    Checked.bitMask 16 16 = .error (.bounds (.outside 16 16)) := by
  obtain ⟨hone, htwo, -, hinverted, houtside, hbit⟩ := fieldLaws 16
  have hdisjoint : Disjoint (w := 16) { top := 15, bottom := 15 } { top := 14, bottom := 0 } := by
    decide
  have hnine : ¬ Holds (w := 16) { top := 15, bottom := 15 } 9 := by
    rintro ⟨hbottom, -⟩
    exact absurd hbottom (by decide)
  obtain ⟨-, -, -, hkept⟩ := hone { top := 15, bottom := 15 } 0x1234 0xFFFD 0
  exact ⟨(htwo _ _ 0x1234 0xFFFD 0xFFFF hdisjoint).1, hkept 9 hnine,
    (hinverted (.get 0x1234) 20 31 (by decide)).2,
    (houtside (.set 0x1234 1) 16 0 (by decide) (by decide)).2,
    ((hbit 15).1 (by decide)).2, ((hbit 16).2 (by decide)).2⟩

end BitRange
end FpgaBitstream
