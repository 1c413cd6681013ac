import FpgaBitstream.Text.Hex
import Mathlib.Algebra.Group.Nat.Defs

/-!
# Reading back hexadecimal numbers

A word that is written as `0x` and eight digits is read back (`Hex.parse32?_prefixed`).  Each digit
is (`Hex.digit?_digitChar`), and a run of the lowest digits of a number gives that number modulo a
power of sixteen (`Hex.digitsFrom?_lowDigits`).
-/

namespace FpgaBitstream.Hex

theorem digit?_digitChar {d : Nat} (h : d < 16) : digit? (digitChar d) = some d := by
  revert d
  decide

theorem digitChar_ne_plus {d : Nat} (h : d < 16) : digitChar d ≠ '+' := by
  revert d
  decide

theorem lowDigits_succ (count n : Nat) :
    lowDigits (count + 1) n = digitChar (n / 16 ^ count % 16) :: lowDigits count n := by
  have hpow : 2 ^ (4 * count) = 16 ^ count := Nat.pow_mul 2 4 count
  rw [lowDigits, List.range_succ_eq_map, List.map_cons, List.map_map, Nat.add_sub_cancel,
    Nat.sub_zero, Nat.shiftRight_eq_div_pow, hpow]
  congr 1
  refine List.map_congr_left fun i _ => ?_
  rw [Function.comp_apply, Nat.succ_eq_add_one, Nat.add_comm i 1, Nat.sub_sub]

/-- Reading the lowest digits of a number behind others appends them. -/
theorem digitsFrom?_lowDigits (count n value : Nat) :
    digitsFrom? value (lowDigits count n) = some (value * 16 ^ count + n % 16 ^ count) := by
  induction count generalizing value with
  | zero => simp [lowDigits, digitsFrom?, Nat.mod_one]
  | succ count ih =>
    have hdigit := digit?_digitChar (Nat.mod_lt (n / 16 ^ count) (by decide : 16 > 0))
    rw [lowDigits_succ, digitsFrom?, hdigit, Option.bind_some, ih, Nat.mod_pow_succ, Nat.pow_succ]
    congr 1
    rw [Nat.add_mul, Nat.mul_assoc, Nat.mul_comm 16, Nat.mul_comm (n / 16 ^ count % 16),
      Nat.add_comm (n % 16 ^ count), Nat.add_assoc]

theorem digits32?_lowDigits (count : Nat) (w : BitVec 32) (hcount : 8 ≤ count) :
    digits32? (lowDigits count w.toNat) = some w := by
  have hlt : w.toNat < 16 ^ count :=
    Nat.lt_of_lt_of_le w.isLt (Nat.pow_le_pow_right (by decide : 16 > 0) hcount)
  have hread := digitsFrom?_lowDigits count w.toNat 0
  rw [Nat.zero_mul, Nat.zero_add, Nat.mod_eq_of_lt hlt] at hread
  obtain ⟨rest, rfl⟩ : ∃ rest, count = rest + 1 := ⟨count - 1, by omega⟩
  have hplus : digitChar (w.toNat / 16 ^ rest % 16) ≠ '+' :=
    digitChar_ne_plus (Nat.mod_lt _ (by decide))
  rw [lowDigits_succ] at hread ⊢
  have hsize : w.toNat < UInt32.size := w.isLt
  simp [digits32?, hplus, hread, hsize]

theorem prefixed_toList (w : BitVec 32) :
    (prefixed w).toList = '0' :: 'x' :: lowDigits (max 8 (digitCount w.toNat)) w.toNat := by
  simp [prefixed, word, padded]

/-- **A word that is written is read back.** -/
theorem parse32?_prefixed (w : BitVec 32) : parse32? (prefixed w).toList = some w := by
  rw [prefixed_toList]
  exact digits32?_lowDigits _ w (Nat.le_max_left ..)

end FpgaBitstream.Hex
