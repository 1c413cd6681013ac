import FpgaBitstream.BitField
import Mathlib.Algebra.Group.Nat.Defs

/-!
# Laws of bit fields

A field of a word is known by its bits: `getLsbD_get` and `getLsbD_set` say where each bit of a
field comes from and where it goes.  Reading a field that was just written gives what was written,
cut to the width of the field (`getNat_setNat`), and fields that share no bit do not disturb each
other (`get_set_of_disjoint`).  The layouts of headers and of frame addresses use nothing else.
-/

namespace FpgaBitstream
namespace BitRange

variable {w : Nat} (r s : BitRange w)

/-- Two ranges without a bit in common. -/
def Disjoint : Prop := r.top < s.bottom ∨ s.top < r.bottom

instance : Decidable (r.Disjoint s) := inferInstanceAs (Decidable (_ ∨ _))

theorem bottom_le_top : r.bottom ≤ r.top := r.bounds.1

theorem top_lt : r.top < w := r.bounds.2

theorem width_add_bottom : r.width + r.bottom = r.top + 1 := by
  have := r.bottom_le_top
  unfold width
  omega

/-! ## The bits of a field -/

theorem getLsbD_mask (i : Nat) :
    r.mask.getLsbD i = (decide (r.bottom ≤ i) && decide (i ≤ r.top)) := by
  have := r.bottom_le_top
  have := r.top_lt
  simp only [mask, BitVec.getLsbD_shiftLeft, BitVec.getLsbD_ushiftRight, BitVec.getLsbD_allOnes]
  grind

theorem getLsbD_get (v : BitVec w) (i : Nat) :
    (r.get v).getLsbD i = (decide (i < r.width) && v.getLsbD (r.bottom + i)) := by
  have := r.width_add_bottom
  simp only [get, BitVec.getLsbD_ushiftRight, BitVec.getLsbD_and, getLsbD_mask]
  grind

theorem getLsbD_set (v field : BitVec w) (i : Nat) :
    (r.set v field).getLsbD i =
      if r.bottom ≤ i ∧ i ≤ r.top then field.getLsbD (i - r.bottom) else v.getLsbD i := by
  have := r.top_lt
  simp only [set, BitVec.getLsbD_or, BitVec.getLsbD_and, BitVec.getLsbD_not,
    BitVec.getLsbD_shiftLeft, getLsbD_mask]
  by_cases hin : r.bottom ≤ i ∧ i ≤ r.top
  · have hi : i < w := by omega
    simp [hin, hi]
  · have hi : w ≤ i → v.getLsbD i = false := v.getLsbD_of_ge i
    grind

/-- A field copied into a word with bits of the same word adds its bits to them. -/
theorem setNat_getNat_and (v bits : BitVec w) :
    r.setNat (v &&& bits) (r.getNat v) = v &&& (bits ||| r.mask) := by
  have hwidth := r.width_add_bottom
  have hfield : BitVec.ofNat w (r.getNat v) = r.get v := by
    rw [getNat, BitVec.ofNat_toNat, BitVec.setWidth_eq]
  refine BitVec.eq_of_getLsbD_eq fun i _ => ?_
  rw [setNat, hfield, getLsbD_set, BitVec.getLsbD_and, BitVec.getLsbD_and, BitVec.getLsbD_or,
    getLsbD_mask]
  by_cases hin : r.bottom ≤ i ∧ i ≤ r.top
  · rw [if_pos hin, getLsbD_get, Nat.add_sub_cancel' hin.1]
    have hi : i - r.bottom < r.width := by omega
    simp [hin, hi]
  · have hout : (decide (r.bottom ≤ i) && decide (i ≤ r.top)) = false := by simpa using hin
    rw [if_neg hin, hout, Bool.or_false]

/-! ## The number in a field -/

theorem toNat_get (v : BitVec w) :
    (r.get v).toNat = v.toNat / 2 ^ r.bottom % 2 ^ r.width := by
  refine Nat.eq_of_testBit_eq fun i => ?_
  rw [BitVec.testBit_toNat, getLsbD_get, Nat.testBit_mod_two_pow, Nat.testBit_div_two_pow,
    BitVec.testBit_toNat, Nat.add_comm i]

theorem getNat_eq (v : BitVec w) : r.getNat v = v.toNat / 2 ^ r.bottom % 2 ^ r.width :=
  r.toNat_get v

theorem getNat_lt (v : BitVec w) : r.getNat v < 2 ^ r.width := by
  rw [getNat_eq]
  exact Nat.mod_lt _ (Nat.two_pow_pos _)

/-! ## Reading what was written -/

/-- A field that was written reads back, apart from the bits that do not fit. -/
theorem getNat_set (v field : BitVec w) :
    r.getNat (r.set v field) = field.toNat % 2 ^ r.width := by
  have hwidth := r.width_add_bottom
  have hwhole : (r.get (r.set v field)).toNat = field.toNat % 2 ^ r.width := by
    refine Nat.eq_of_testBit_eq fun i => ?_
    rw [BitVec.testBit_toNat, getLsbD_get, getLsbD_set, Nat.testBit_mod_two_pow,
      BitVec.testBit_toNat]
    by_cases hi : i < r.width
    · rw [if_pos (by omega), Nat.add_sub_cancel_left]
    · simp [hi]
  exact hwhole

/-- The same for a field given as a number. -/
theorem getNat_setNat (v : BitVec w) (n : Nat) :
    r.getNat (r.setNat v n) = n % 2 ^ r.width := by
  have hwidth : r.width ≤ w := by
    have := r.width_add_bottom
    have := r.top_lt
    omega
  rw [setNat, getNat_set, BitVec.toNat_ofNat, Nat.mod_mod_of_dvd _ (Nat.pow_dvd_pow 2 hwidth)]

theorem getNat_setNat_of_lt {v : BitVec w} {n : Nat} (h : n < 2 ^ r.width) :
    r.getNat (r.setNat v n) = n := by
  rw [getNat_setNat, Nat.mod_eq_of_lt h]

theorem get_set_of_lt {v field : BitVec w} (h : field.toNat < 2 ^ r.width) :
    r.get (r.set v field) = field := by
  refine BitVec.eq_of_toNat_eq ?_
  have := r.getNat_set v field
  rwa [Nat.mod_eq_of_lt h] at this

variable {r s}

/-- Writing a field leaves a disjoint one alone. -/
theorem get_set_of_disjoint (h : r.Disjoint s) (v field : BitVec w) :
    r.get (s.set v field) = r.get v := by
  have := r.width_add_bottom
  refine BitVec.eq_of_getLsbD_eq fun i _ => ?_
  rw [getLsbD_get, getLsbD_get]
  by_cases hi : i < r.width
  · rw [getLsbD_set, if_neg (by rcases h with h | h <;> omega)]
  · simp [hi]

theorem getNat_set_of_disjoint (h : r.Disjoint s) (v field : BitVec w) :
    r.getNat (s.set v field) = r.getNat v :=
  congrArg BitVec.toNat (get_set_of_disjoint h v field)

theorem getNat_setNat_of_disjoint (h : r.Disjoint s) (v : BitVec w) (n : Nat) :
    r.getNat (s.setNat v n) = r.getNat v :=
  getNat_set_of_disjoint h v _

/-- Writing a field below bit `n` keeps a word below `2 ^ n`. -/
theorem toNat_set_lt {v field : BitVec w} {n : Nat} (hv : v.toNat < 2 ^ n) (hr : r.top < n) :
    (r.set v field).toNat < 2 ^ n := by
  refine Nat.lt_pow_two_of_testBit _ fun i hi => ?_
  rw [BitVec.testBit_toNat, getLsbD_set, if_neg (by omega), ← BitVec.testBit_toNat]
  exact Nat.testBit_lt_two_pow (Nat.lt_of_lt_of_le hv (Nat.pow_le_pow_right (by decide) hi))

end BitRange
end FpgaBitstream
