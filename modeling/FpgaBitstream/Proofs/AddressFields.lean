import FpgaBitstream.Proofs.FrameAddress

/-!
# Packing addresses

An address is its fields and its reserved bits.  Packing cuts each field to its width, and packing
the fields of an address gives it back with its reserved bits cleared (`pack_fields`), so that on
addresses with clear reserved bits another minor frame changes the minor field alone
(`withMinor_eq`).  Among these addresses the order of the raw values is that of the fields, the
block type first (`compare_eq_compareFields`): the codes that a field can hold are ordered as the
block types that they stand for are, although the reserved block types come behind all others.  The
four together are `pack_faithful`.
-/

namespace FpgaBitstream

/-! ## The order of block types -/

namespace BlockType

theorem rank_ofCode (n : Nat) : (ofCode n).rank = if n < 3 then n else n + 3 := by
  unfold ofCode
  split
  case h_4 h₀ h₁ h₂ =>
    have hn : ¬ n < 3 := by
      intro hlt
      obtain rfl | rfl | rfl : n = 0 ∨ n = 1 ∨ n = 2 := by omega
      · exact h₀ rfl
      · exact h₁ rfl
      · exact h₂ rfl
    rw [if_neg hn]
    rfl
  all_goals rfl

/-- **Block types are ordered as the codes that they were read from.** -/
theorem compare_ofCode_eq_lt {m n : Nat} (h : m < n) : compare (ofCode m) (ofCode n) = .lt := by
  refine Nat.compare_eq_lt.2 (show (ofCode m).rank < (ofCode n).rank from ?_)
  rw [rank_ofCode, rank_ofCode]
  split <;> split <;> omega

end BlockType

namespace FrameAddress

variable {f : Family}

/-! ## Fields taken together -/

/-- The five fields of an address. -/
structure HasFields (a : FrameAddress f) (blockType : BlockType) (half : Half)
    (row column minor : Nat) : Prop where
  blockType : a.blockType = blockType
  half : a.half = half
  row : a.row = row
  column : a.column = column
  minor : a.minor = minor

/-- An address with clear reserved bits is known by its fields. -/
theorem HasFields.unique {a b : FrameAddress f} {blockType : BlockType} {half : Half}
    {row column minor : Nat} (ha : a.HasFields blockType half row column minor)
    (hb : b.HasFields blockType half row column minor) (hac : a.Canonical) (hbc : b.Canonical) :
    a = b :=
  eq_of_fields hac hbc (ha.blockType.trans hb.blockType.symm) (ha.half.trans hb.half.symm)
    (ha.row.trans hb.row.symm) (ha.column.trans hb.column.symm) (ha.minor.trans hb.minor.symm)

/-- **Packing cuts each field to its width**; without a half selector the half is the top one. -/
theorem hasFields_pack (f : Family) (b : BlockType) (h : Half) (row column minor : Nat) :
    (pack f b h row column minor).HasFields
      (.ofCode (b.code % 2 ^ f.addressLayout.blockType.width))
      (if f = .spartan6 then .top else h) (row % 2 ^ f.addressLayout.row.width)
      (column % 2 ^ f.addressLayout.column.width) (minor % 2 ^ f.addressLayout.minor.width) where
  blockType := blockType_pack f b h row column minor
  half := by
    split
    case isTrue hnarrow => exact half_eq_top (by rw [hnarrow]; rfl) _
    case isFalse hwide =>
      exact half_pack f b h row column minor fun hnone =>
        absurd (Family.eq_spartan6_of_half_eq_none hnone) hwide
  row := row_pack f b h row column minor
  column := column_pack f b h row column minor
  minor := minor_pack f b h row column minor

/-! ## Replacing the bits of a range -/

section Replaced
variable (a : FrameAddress f) {r : BitRange 32} (n : Nat)

/-- The address with a number written to a range of its bits. -/
def replaced (r : BitRange 32) : FrameAddress f := ⟨r.setNat a.raw n⟩

theorem blockType_replaced (h : f.addressLayout.blockType.Disjoint r) :
    (a.replaced n r).blockType = a.blockType :=
  congrArg BlockType.ofCode (BitRange.getNat_setNat_of_disjoint h a.raw n)

theorem half_replaced (h : ∀ range, f.addressLayout.half = some range → range.Disjoint r) :
    (a.replaced n r).half = a.half := by
  unfold half
  cases hrange : f.addressLayout.half with
  | none => rfl
  | some range =>
    have hsame : range.getNat (a.replaced n r).raw = range.getNat a.raw :=
      BitRange.getNat_setNat_of_disjoint (h range hrange) a.raw n
    simp only [hsame]

theorem row_replaced (h : f.addressLayout.row.Disjoint r) : (a.replaced n r).row = a.row :=
  BitRange.getNat_setNat_of_disjoint h a.raw n

theorem column_replaced (h : f.addressLayout.column.Disjoint r) :
    (a.replaced n r).column = a.column :=
  BitRange.getNat_setNat_of_disjoint h a.raw n

theorem minor_replaced (h : f.addressLayout.minor.Disjoint r) : (a.replaced n r).minor = a.minor :=
  BitRange.getNat_setNat_of_disjoint h a.raw n

end Replaced

/-- A selector of the half shares no bit with the reserved ones or the minor field. -/
theorem disjoint_half {range : BitRange 32} (h : f.addressLayout.half = some range) :
    range.Disjoint f.reservedBits ∧ range.Disjoint f.addressLayout.minor := by
  cases f
  case spartan6 => cases h
  all_goals
    obtain rfl := Option.some.inj h
    decide

/-- The address with its reserved bits cleared. -/
def cleared (a : FrameAddress f) : FrameAddress f := a.replaced 0 f.reservedBits

theorem canonical_cleared (a : FrameAddress f) : a.cleared.Canonical :=
  BitRange.getNat_setNat_of_lt _ (Nat.two_pow_pos _)

theorem hasFields_cleared (a : FrameAddress f) :
    a.cleared.HasFields a.blockType a.half a.row a.column a.minor where
  blockType := a.blockType_replaced 0 (by cases f <;> decide)
  half := a.half_replaced 0 fun _ h => (disjoint_half h).1
  row := a.row_replaced 0 (by cases f <;> decide)
  column := a.column_replaced 0 (by cases f <;> decide)
  minor := a.minor_replaced 0 (by cases f <;> decide)

/-- **Packing the fields of an address** clears its reserved bits and changes nothing else. -/
theorem pack_fields (a : FrameAddress f) :
    pack f a.blockType a.half a.row a.column a.minor = a.cleared := by
  have hpacked : (pack f a.blockType a.half a.row a.column a.minor).HasFields
      a.blockType a.half a.row a.column a.minor :=
    ⟨a.blockType_pack_blockType .., a.half_pack_half .., row_pack_of_lt a.row_lt,
      column_pack_of_lt a.column_lt, minor_pack_of_lt a.minor_lt⟩
  exact hpacked.unique a.hasFields_cleared (canonical_pack ..) a.canonical_cleared

/-! ## Another minor frame -/

theorem hasFields_withMinor (a : FrameAddress f) (minor : Nat) :
    (a.withMinor minor).HasFields a.blockType a.half a.row a.column
      (minor % 2 ^ f.addressLayout.minor.width) :=
  ⟨a.blockType_pack_blockType .., a.half_pack_half .., row_pack_of_lt a.row_lt,
    column_pack_of_lt a.column_lt, minor_pack ..⟩

/-- **Another minor frame** is another number in the bits of the minor field. -/
theorem withMinor_eq {a : FrameAddress f} (ha : a.Canonical) (minor : Nat) :
    a.withMinor minor = a.replaced minor f.addressLayout.minor := by
  have hreserved : f.reservedBits.Disjoint f.addressLayout.minor := by cases f <;> decide
  have hcanonical : (a.replaced minor f.addressLayout.minor).Canonical :=
    (BitRange.getNat_setNat_of_disjoint hreserved a.raw minor).trans ha
  have hreplaced : (a.replaced minor f.addressLayout.minor).HasFields
      a.blockType a.half a.row a.column (minor % 2 ^ f.addressLayout.minor.width) :=
    ⟨a.blockType_replaced minor (by cases f <;> decide),
      a.half_replaced minor fun _ h => (disjoint_half h).2,
      a.row_replaced minor (by cases f <;> decide),
      a.column_replaced minor (by cases f <;> decide), BitRange.getNat_setNat _ _ _⟩
  exact (a.hasFields_withMinor minor).unique hreplaced (canonical_pack ..) hcanonical

/-! ## The order of the fields -/

/-- Compares the fields of addresses; the first that differs decides. -/
def compareFields : FrameAddress f → FrameAddress f → Ordering :=
  compareLex (compareOn blockType) <| compareLex (compareOn (·.half.code)) <|
    compareLex (compareOn row) <| compareLex (compareOn column) (compareOn minor)

instance : Std.TransCmp (compareFields (f := f)) :=
  inferInstanceAs (Std.TransCmp (compareLex (compareOn blockType) _))

theorem Precedes.compareFields_eq_lt {a b : FrameAddress f} (h : a.Precedes b) :
    compareFields a b = .lt := by
  have hnumber {m n : Nat} (hlt : m < n) : compare m n = .lt := Nat.compare_eq_lt.2 hlt
  simp only [compareFields, compareLex, compareOn]
  cases h with
  | blockType h =>
    have hblock : compare a.blockType b.blockType = .lt := by
      rw [code_blockType, code_blockType] at h
      exact BlockType.compare_ofCode_eq_lt h
    rw [hblock]
    rfl
  | half hb h => simp [hb, hnumber h]
  | row hb hh h => simp [hb, hh, hnumber h]
  | column hb hh hr h => simp [hb, hh, hr, hnumber h]
  | minor hb hh hr hc h => simp [hb, hh, hr, hc, hnumber h]

/-- **The order of the raw values is that of the fields**, where the reserved bits are clear. -/
theorem compare_eq_compareFields {a b : FrameAddress f} (ha : a.Canonical) (hb : b.Canonical) :
    compare a b = compareFields a b := by
  rcases Nat.lt_trichotomy a.raw.toNat b.raw.toNat with hlt | heq | hgt
  · rw [compare_eq_lt.2 hlt, (precedes_of_raw_lt ha hb hlt).compareFields_eq_lt]
  · obtain rfl : a = b := eq_of_raw_eq (BitVec.eq_of_toNat_eq heq)
    have hfields : compareFields a a = .eq := Std.ReflCmp.compare_self
    exact Std.ReflCmp.compare_self.trans hfields.symm
  · have hraw : compare b a = .lt := compare_eq_lt.2 hgt
    have hfields : compareFields b a = .lt := (precedes_of_raw_lt hb ha hgt).compareFields_eq_lt
    rw [Std.OrientedCmp.gt_of_lt hraw, Std.OrientedCmp.gt_of_lt hfields]

/-- **Packing is faithful and keeps the order.**  The fields of a packed address are the numbers
given, cut to the widths of their fields, and the top half where there is no half selector.  The
fields of an address pack to it with its reserved bits cleared.  On addresses with clear reserved
bits, another minor frame changes the bits of the minor field only, and the order of the raw values
is that of block type, half, row, column and minor frame. -/
theorem pack_faithful (f : Family) :
    (∀ (b : BlockType) (h : Half) (row column minor : Nat),
      (pack f b h row column minor).HasFields
        (.ofCode (b.code % 2 ^ f.addressLayout.blockType.width))
        (if f = .spartan6 then .top else h) (row % 2 ^ f.addressLayout.row.width)
        (column % 2 ^ f.addressLayout.column.width)
        (minor % 2 ^ f.addressLayout.minor.width)) ∧
    (∀ a : FrameAddress f, pack f a.blockType a.half a.row a.column a.minor =
      ⟨f.reservedBits.setNat a.raw 0⟩) ∧
    (∀ (a : FrameAddress f) (minor : Nat), a.Canonical →
      a.withMinor minor = ⟨f.addressLayout.minor.setNat a.raw minor⟩ ∧
        (a.withMinor minor).HasFields a.blockType a.half a.row a.column
          (minor % 2 ^ f.addressLayout.minor.width)) ∧
    ∀ a b : FrameAddress f, a.Canonical → b.Canonical →
      compare a.raw b.raw = compareFields a b :=
  ⟨hasFields_pack f, pack_fields,
    fun a minor ha => ⟨withMinor_eq ha minor, a.hasFields_withMinor minor⟩,
    fun _ _ ha hb => compare_eq_compareFields ha hb⟩

/-- The last frame of a column, and the first of the same column in another half. -/
theorem pack_faithful_halves :
    withMinor (f := .series7) ⟨0x0002007F⟩ 0x85 = ⟨0x00020005⟩ ∧
      compare (0x0002007F : Word) 0x00420000 =
        compareFields (f := .series7) ⟨0x0002007F⟩ ⟨0x00420000⟩ := by
  obtain ⟨-, -, hminor, horder⟩ := pack_faithful .series7
  have hlow : Canonical (f := .series7) ⟨0x0002007F⟩ := by decide
  exact ⟨(hminor ⟨0x0002007F⟩ 0x85 hlow).1, horder ⟨0x0002007F⟩ ⟨0x00420000⟩ hlow (by decide)⟩

end FrameAddress
end FpgaBitstream
