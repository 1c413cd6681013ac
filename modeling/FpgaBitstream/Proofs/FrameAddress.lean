import FpgaBitstream.FrameAddress
import FpgaBitstream.Proofs.BitField

/-!
# Fields and order of frame addresses

Packing fields into an address and reading them back gives the fields, cut to their widths
(`row_pack` and its like).  A packed address has clear reserved bits, and among such addresses the
order of the raw values is the order of the fields (`raw_lt_of_precedes`, `precedes_of_raw_lt`):
first the block type, then the half, the row, the column and the minor frame.  That is why a walk
which always moves on to later fields climbs.
-/

namespace FpgaBitstream

/-- The bits of an address that belong to no field. -/
def Family.reservedBits : Family → BitRange 32
  | .spartan6 => { top := 15, bottom := 10 }
  | _ => { top := 31, bottom := 26 }

/-- Only one family has no half selector. -/
theorem Family.eq_spartan6_of_half_eq_none {f : Family} (h : f.addressLayout.half = none) :
    f = .spartan6 := by
  cases f
  case spartan6 => rfl
  all_goals cases h

theorem BlockType.code_ofCode (n : Nat) : (BlockType.ofCode n).code = n := by
  unfold BlockType.ofCode
  split <;> rfl

/-- The configurable block types are ordered as their codes are. -/
theorem BlockType.code_lt_of_compare {b c : BlockType} (hc : c ∈ BlockType.configurable)
    (h : compare b c = .lt) : b.code < c.code := by
  have hrank : b.rank < c.rank := Nat.compare_eq_lt.1 h
  have hb : b.code ≤ b.rank := by
    cases b <;> simp [BlockType.rank, BlockType.code]
  have hc : c.rank = c.code := by
    simp only [BlockType.configurable, List.mem_cons, List.not_mem_nil, or_false] at hc
    rcases hc with rfl | rfl | rfl <;> rfl
  omega

namespace FrameAddress

variable {f : Family}

theorem code_blockType (a : FrameAddress f) :
    a.blockType.code = f.addressLayout.blockType.getNat a.raw :=
  BlockType.code_ofCode _

theorem row_lt (a : FrameAddress f) : a.row < 2 ^ f.addressLayout.row.width :=
  BitRange.getNat_lt _ _

theorem column_lt (a : FrameAddress f) : a.column < 2 ^ f.addressLayout.column.width :=
  BitRange.getNat_lt _ _

theorem minor_lt (a : FrameAddress f) : a.minor < 2 ^ f.addressLayout.minor.width :=
  BitRange.getNat_lt _ _

/-- Without a half selector every address lies in the top half. -/
theorem half_eq_top (h : f.addressLayout.half = none) (a : FrameAddress f) : a.half = .top := by
  unfold half
  rw [h]

/-- An address whose reserved bits are clear. -/
def Canonical (a : FrameAddress f) : Prop := f.reservedBits.getNat a.raw = 0

instance (a : FrameAddress f) : Decidable a.Canonical := inferInstanceAs (Decidable (_ = _))

/-! ## The fields of a packed address -/

section Pack
variable (f) (b : BlockType) (h : Half) (row column minor : Nat)

theorem canonical_pack : (pack f b h row column minor).Canonical := by
  cases f <;>
    (simp (disch := decide) only [Canonical, pack, Family.reservedBits, Family.addressLayout,
      AddressLayout.series7, AddressLayout.spartan6, BitRange.getNat_setNat_of_disjoint]
     rfl)

theorem blockType_pack :
    (pack f b h row column minor).blockType =
      .ofCode (b.code % 2 ^ f.addressLayout.blockType.width) := by
  unfold blockType
  cases f <;>
    simp (disch := decide) only [pack, Family.addressLayout, AddressLayout.series7,
      AddressLayout.spartan6, BitRange.getNat_setNat_of_disjoint, BitRange.getNat_setNat]

theorem half_pack (hhalf : f.addressLayout.half = none → h = .top) :
    (pack f b h row column minor).half = h := by
  cases f <;>
    simp only [half, pack, Family.addressLayout, AddressLayout.series7, AddressLayout.spartan6]
  case spartan6 => exact (hhalf rfl).symm
  all_goals
    simp (disch := decide) only [BitRange.getNat_setNat_of_disjoint, BitRange.getNat_setNat]
    cases h <;> simp [Half.code, BitRange.width]

theorem row_pack :
    (pack f b h row column minor).row = row % 2 ^ f.addressLayout.row.width := by
  unfold FrameAddress.row
  cases f <;>
    simp (disch := decide) only [pack, Family.addressLayout, AddressLayout.series7,
      AddressLayout.spartan6, BitRange.getNat_setNat_of_disjoint, BitRange.getNat_setNat]

theorem column_pack :
    (pack f b h row column minor).column = column % 2 ^ f.addressLayout.column.width := by
  unfold FrameAddress.column
  cases f <;>
    simp (disch := decide) only [pack, Family.addressLayout, AddressLayout.series7,
      AddressLayout.spartan6, BitRange.getNat_setNat_of_disjoint, BitRange.getNat_setNat]

theorem minor_pack :
    (pack f b h row column minor).minor = minor % 2 ^ f.addressLayout.minor.width :=
  BitRange.getNat_setNat _ _ _

end Pack

/-! Packing the fields of another address, or numbers that fit, loses nothing. -/

theorem blockType_pack_blockType (a : FrameAddress f) (h : Half) (row column minor : Nat) :
    (pack f a.blockType h row column minor).blockType = a.blockType := by
  rw [blockType_pack, code_blockType, Nat.mod_eq_of_lt (BitRange.getNat_lt _ _)]
  rfl

theorem blockType_pack_of_configurable {b : BlockType} (hb : b ∈ BlockType.configurable)
    (h : Half) (row column minor : Nat) : (pack f b h row column minor).blockType = b := by
  rw [blockType_pack]
  simp only [BlockType.configurable, List.mem_cons, List.not_mem_nil, or_false] at hb
  rcases hb with rfl | rfl | rfl <;> cases f <;> rfl

theorem half_pack_half (a : FrameAddress f) (b : BlockType) (row column minor : Nat) :
    (pack f b a.half row column minor).half = a.half :=
  half_pack f b a.half row column minor fun hnone => half_eq_top hnone a

theorem row_pack_of_lt {b : BlockType} {h : Half} {row column minor : Nat}
    (hrow : row < 2 ^ f.addressLayout.row.width) : (pack f b h row column minor).row = row := by
  rw [row_pack, Nat.mod_eq_of_lt hrow]

theorem column_pack_of_lt {b : BlockType} {h : Half} {row column minor : Nat}
    (hcolumn : column < 2 ^ f.addressLayout.column.width) :
    (pack f b h row column minor).column = column := by
  rw [column_pack, Nat.mod_eq_of_lt hcolumn]

theorem minor_pack_of_lt {b : BlockType} {h : Half} {row column minor : Nat}
    (hminor : minor < 2 ^ f.addressLayout.minor.width) :
    (pack f b h row column minor).minor = minor := by
  rw [minor_pack, Nat.mod_eq_of_lt hminor]

/-! ## The order of addresses -/

/-- Addresses are ordered as their raw values. -/
theorem compare_eq_lt {a b : FrameAddress f} : compare a b = .lt ↔ a.raw < b.raw :=
  compareOfLessAndEq_eq_lt

/-- The fields of the first address come before those of the second. -/
inductive Precedes (a b : FrameAddress f) : Prop where
  | blockType (h : a.blockType.code < b.blockType.code)
  | half (hb : a.blockType = b.blockType) (h : a.half.code < b.half.code)
  | row (hb : a.blockType = b.blockType) (hh : a.half = b.half) (h : a.row < b.row)
  | column (hb : a.blockType = b.blockType) (hh : a.half = b.half) (hr : a.row = b.row)
      (h : a.column < b.column)
  | minor (hb : a.blockType = b.blockType) (hh : a.half = b.half) (hr : a.row = b.row)
      (hc : a.column = b.column) (h : a.minor < b.minor)

/-- The number that the fields of an address make up. -/
def place (a : FrameAddress f) : Nat :=
  match f with
  | .spartan6 =>
    a.blockType.code * 2 ^ 28 + a.row * 2 ^ 24 + a.column * 2 ^ 16 + a.minor
  | _ =>
    a.blockType.code * 2 ^ 23 + a.half.code * 2 ^ 22 + a.row * 2 ^ 17 + a.column * 2 ^ 7 + a.minor

theorem code_half (a : FrameAddress f) {range : BitRange 32}
    (h : f.addressLayout.half = some range) (hwidth : range.width = 1) :
    a.half.code = range.getNat a.raw := by
  have hlt := range.getNat_lt a.raw
  rw [hwidth] at hlt
  unfold half
  simp only [h]
  split
  · simp only [Half.code]; omega
  · simp only [Half.code]; omega

/-- With clear reserved bits there is nothing in an address but its fields. -/
theorem toNat_raw_eq_place {a : FrameAddress f} (ha : a.Canonical) : a.raw.toNat = a.place := by
  have hlt := a.raw.isLt
  unfold Canonical at ha
  cases f
  case spartan6 =>
    simp only [place, code_blockType, row, column, minor, Family.reservedBits,
      Family.addressLayout, AddressLayout.spartan6, BitRange.getNat_eq, BitRange.width] at ha ⊢
    omega
  all_goals
    have hhalf := a.code_half rfl rfl
    simp only [place, hhalf, code_blockType, row, column, minor, Family.reservedBits,
      Family.addressLayout, AddressLayout.series7, BitRange.getNat_eq, BitRange.width] at ha ⊢
    omega

/-- **Later fields make a larger address**, as long as the reserved bits are clear. -/
theorem raw_lt_of_precedes {a b : FrameAddress f} (ha : a.Canonical) (hb : b.Canonical)
    (h : a.Precedes b) : a.raw < b.raw := by
  have hra := a.row_lt
  have hca := a.column_lt
  have hma := a.minor_lt
  have hha : a.half.code ≤ 1 := by cases a.half <;> decide
  have htop : f.addressLayout.half = none → a.half.code = 0 ∧ b.half.code = 0 := by
    intro hnone
    rw [half_eq_top hnone a, half_eq_top hnone b]
    exact ⟨rfl, rfl⟩
  rw [BitVec.lt_def, toNat_raw_eq_place ha, toNat_raw_eq_place hb]
  -- each field stays below the weight of the one in front of it
  cases f
  case spartan6 =>
    obtain ⟨hta, htb⟩ := htop rfl
    simp only [place, Family.addressLayout, AddressLayout.spartan6, BitRange.width] at hra hca hma ⊢
    cases h with
    | blockType h => omega
    | half hb h => omega
    | row hb hh h => rw [hb]; omega
    | column hb hh hr h => rw [hb]; omega
    | minor hb hh hr hc h => rw [hb]; omega
  all_goals
    simp only [place, Family.addressLayout, AddressLayout.series7, BitRange.width] at hra hca hma ⊢
    cases h with
    | blockType h => omega
    | half hb h => rw [hb]; omega
    | row hb hh h => rw [hb, hh]; omega
    | column hb hh hr h => rw [hb, hh]; omega
    | minor hb hh hr hc h => rw [hb, hh]; omega

/-! With clear reserved bits the order of the raw values is that of the fields, and nothing else. -/

theorem blockType_eq_of_code_eq {a b : FrameAddress f} (h : a.blockType.code = b.blockType.code) :
    a.blockType = b.blockType := by
  rw [code_blockType, code_blockType] at h
  unfold blockType
  rw [h]

/-- An address is its raw value. -/
theorem eq_of_raw_eq {a b : FrameAddress f} (h : a.raw = b.raw) : a = b := by
  cases a
  cases b
  exact congrArg _ h

/-- Addresses with clear reserved bits and the same fields are the same. -/
theorem eq_of_fields {a b : FrameAddress f} (ha : a.Canonical) (hb : b.Canonical)
    (hblock : a.blockType = b.blockType) (hhalf : a.half = b.half) (hrow : a.row = b.row)
    (hcolumn : a.column = b.column) (hminor : a.minor = b.minor) : a = b := by
  have hplace : a.place = b.place := by
    cases f <;> simp only [place, hblock, hhalf, hrow, hcolumn, hminor]
  refine eq_of_raw_eq (BitVec.eq_of_toNat_eq ?_)
  rw [toNat_raw_eq_place ha, toNat_raw_eq_place hb, hplace]

/-- Packing the fields of such an address gives it back. -/
theorem eq_pack {a : FrameAddress f} (ha : a.Canonical) :
    a = pack f a.blockType a.half a.row a.column a.minor := by
  refine eq_of_fields ha (canonical_pack ..) ?_ ?_ ?_ ?_ ?_
  · exact (a.blockType_pack_blockType ..).symm
  · exact (a.half_pack_half ..).symm
  · exact (row_pack_of_lt a.row_lt).symm
  · exact (column_pack_of_lt a.column_lt).symm
  · exact (minor_pack_of_lt a.minor_lt).symm

/-- **A larger address has later fields**, as long as the reserved bits are clear. -/
theorem precedes_of_raw_lt {a b : FrameAddress f} (ha : a.Canonical) (hb : b.Canonical)
    (h : a.raw < b.raw) : a.Precedes b := by
  have hback : ¬ b.Precedes a := by
    intro hprecedes
    have hlt := raw_lt_of_precedes hb ha hprecedes
    rw [BitVec.lt_def] at h hlt
    omega
  -- the first field in which the two differ decides
  rcases Nat.lt_trichotomy a.blockType.code b.blockType.code with hlt | hblock | hgt
  · exact .blockType hlt
  · have hblock := blockType_eq_of_code_eq hblock
    rcases Nat.lt_trichotomy a.half.code b.half.code with hlt | hhalf | hgt
    · exact .half hblock hlt
    · have hhalf : a.half = b.half := by
        cases ha : a.half <;> cases hb : b.half <;> simp_all [Half.code]
      rcases Nat.lt_trichotomy a.row b.row with hlt | hrow | hgt
      · exact .row hblock hhalf hlt
      · rcases Nat.lt_trichotomy a.column b.column with hlt | hcolumn | hgt
        · exact .column hblock hhalf hrow hlt
        · rcases Nat.lt_trichotomy a.minor b.minor with hlt | hminor | hgt
          · exact .minor hblock hhalf hrow hcolumn hlt
          · obtain rfl := eq_of_fields ha hb hblock hhalf hrow hcolumn hminor
            rw [BitVec.lt_def] at h
            omega
          · exact absurd (.minor hblock.symm hhalf.symm hrow.symm hcolumn.symm hgt) hback
        · exact absurd (.column hblock.symm hhalf.symm hrow.symm hgt) hback
      · exact absurd (.row hblock.symm hhalf.symm hgt) hback
    · exact absurd (.half hblock.symm hgt) hback
  · exact absurd (.blockType hgt) hback

end FrameAddress
end FpgaBitstream
