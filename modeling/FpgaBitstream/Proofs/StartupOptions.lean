import FpgaBitstream.StartupOptions
import FpgaBitstream.Proofs.BitField

/-!
# The startup options register

The fields of the register share no bit, so options are read back from the value that they make up,
if the clock frequency fits its field (`StartupOptions.ofRaw_toRaw`).  The other way round, each
field of a value is copied to its own place, so that the bits of all fields are kept and no others
(`StartupOptions.toRaw_ofRaw`); only the reserved code of the startup clock is read as that of the
configuration clock.
-/

namespace FpgaBitstream

/-! ## Codes of a field -/

theorem StartupCycle.code_ofCode {n : Nat} (h : n < 2 ^ 3) : (ofCode n).code = n := by
  have hall : ∀ m < 2 ^ 3, (ofCode m).code = m := by decide
  exact hall n h

theorem StartupClock.code_ofCode {n : Nat} (h : n < 2 ^ 2) (hne : n ≠ 3) : (ofCode n).code = n := by
  have hall : ∀ m < 2 ^ 2, m ≠ 3 → (ofCode m).code = m := by decide
  exact hall n h hne

namespace BitRange
variable {r : BitRange 32}

theorem getNat_setNat_bit (h : r.width = 1) (raw : Word) (b : Bool) :
    (r.getNat (r.setNat raw b.toNat) != 0) = b := by
  rw [getNat_setNat, h]
  cases b <;> rfl

theorem getNat_setNat_cycle (h : r.width = 3) (raw : Word) (cycle : StartupCycle) :
    StartupCycle.ofCode (r.getNat (r.setNat raw cycle.code)) = cycle := by
  rw [getNat_setNat, h]
  cases cycle <;> rfl

theorem getNat_setNat_clock (h : r.width = 2) (raw : Word) (clock : StartupClock) :
    StartupClock.ofCode (r.getNat (r.setNat raw clock.code)) = clock := by
  rw [getNat_setNat, h]
  cases clock <;> rfl

theorem toNat_bit (h : r.width = 1) (raw : Word) : (r.getNat raw != 0).toNat = r.getNat raw := by
  have hlt : r.getNat raw < 2 ^ 1 := h ▸ r.getNat_lt raw
  obtain hbit | hbit : r.getNat raw = 0 ∨ r.getNat raw = 1 := by omega
  all_goals
    rw [hbit]
    rfl

theorem code_cycle (h : r.width = 3) (raw : Word) :
    (StartupCycle.ofCode (r.getNat raw)).code = r.getNat raw :=
  StartupCycle.code_ofCode (h ▸ r.getNat_lt raw)

end BitRange

namespace StartupOptions

/-! ## Reading options back -/

/-- **Options are read back from their register value**, if the frequency fits its field. -/
theorem ofRaw_toRaw {o : StartupOptions} (h : o.cclkFrequency ≤ 0x3F) : ofRaw o.toRaw = o := by
  have hfrequency : o.cclkFrequency < 2 ^ cclkFrequencyBits.width := Nat.lt_succ_of_le h
  -- the fields written behind a field are disjoint from it, and it reads as what was written
  simp (disch := decide) only [ofRaw, toRaw, BitRange.getNat_setNat_of_disjoint,
    BitRange.getNat_setNat_bit, BitRange.getNat_setNat_cycle, BitRange.getNat_setNat_clock]
  rw [BitRange.getNat_setNat_of_lt _ hfrequency]

/-! ## Register values -/

/-- The fields of the register. -/
def fields : List (BitRange 32) :=
  [powerDownStatusBit, donePipelineBit, driveDoneBit, singleReadbackBit, cclkFrequencyBits,
    startupClockBits, doneCycleBits, dciMatchCycleBits, mmcmLockCycleBits, gtsCycleBits,
    gweCycleBits]

/-- The bits of all fields; the other bits are reserved. -/
def definedBits : Word := fields.foldl (fun bits field => bits ||| field.mask) 0

/-- The value without the reserved code of the startup clock. -/
def withoutReservedClock (raw : Word) : Word :=
  if startupClockBits.getNat raw = 3 then startupClockBits.setNat raw 0 else raw

theorem startupClock_withoutReservedClock (raw : Word) :
    startupClockBits.getNat (withoutReservedClock raw) ≠ 3 := by
  unfold withoutReservedClock
  split
  · rw [BitRange.getNat_setNat]
    decide
  · assumption

/-- The reserved code is read as the configuration clock. -/
theorem ofRaw_withoutReservedClock (raw : Word) : ofRaw (withoutReservedClock raw) = ofRaw raw := by
  unfold withoutReservedClock
  split
  case isTrue h =>
    simp (disch := decide) only [ofRaw, BitRange.getNat_setNat_of_disjoint,
      BitRange.getNat_setNat, h]
    rfl
  case isFalse => rfl

/-- A value whose clock is not reserved is kept in all fields. -/
theorem toRaw_ofRaw_of_ne {raw : Word} (h : startupClockBits.getNat raw ≠ 3) :
    (ofRaw raw).toRaw = raw &&& definedBits := by
  have hclock : (StartupClock.ofCode (startupClockBits.getNat raw)).code =
      startupClockBits.getNat raw := StartupClock.code_ofCode (startupClockBits.getNat_lt raw) h
  have hzero : (0 : Word) = raw &&& 0 := BitVec.and_zero.symm
  -- from no bits at all on, each field adds its own bits of the value
  simp (disch := decide) only [toRaw, ofRaw, BitRange.toNat_bit, BitRange.code_cycle, hclock]
  rw [hzero]
  simp only [BitRange.setNat_getNat_and]
  rfl

/-- **A register value keeps the bits of its fields**, and no others; the reserved code of the
startup clock becomes zero. -/
theorem toRaw_ofRaw (raw : Word) :
    (ofRaw raw).toRaw = withoutReservedClock raw &&& definedBits := by
  rw [← ofRaw_withoutReservedClock, toRaw_ofRaw_of_ne (startupClock_withoutReservedClock raw)]

example : definedBits = 0x0BFFFFFF := by decide

end StartupOptions
end FpgaBitstream
