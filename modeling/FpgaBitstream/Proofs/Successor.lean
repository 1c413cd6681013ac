import FpgaBitstream.Proofs.Geometry

/-!
# The next frame is a frame

The walk over a part whose numbers fit is known in full (`Part.isFirst_next?`).  Where numbers are
cut when an address is packed from them, it may skip frames or come back to where it was, but it
never leaves the part: the address that follows another is a frame again
(`Part.contains_of_next?`).  At each level the next address is packed from the fields that select
the level, so it selects the same one, and a number that might be cut is looked up again before the
address is taken.

The one thing a part must not have for this is a bottom half that no address can name
(`Part.HalvesNamed`), and no part can be had with one (`Part.Obtained.halvesNamed`).
-/

namespace FpgaBitstream

variable {f : Family} {a b : FrameAddress f}

open FrameAddress

/-! ## Within a region -/

theorem Column.contains_of_next? {column : Column} (h : column.next? a = some b) :
    (∃ minor, b = pack f a.blockType a.half a.row a.column minor) ∧ column.contains b := by
  unfold next? at h
  split at h
  case isFalse => cases h
  case isTrue hlt =>
    obtain rfl := Option.some.inj h
    refine ⟨⟨_, rfl⟩, ?_⟩
    -- a minor number too large for its field comes out smaller
    have hminor : (a.withMinor (a.minor + 1)).minor ≤ a.minor + 1 := by
      rw [withMinor, minor_pack]
      exact Nat.mod_le _ _
    exact decide_eq_true (Nat.lt_of_le_of_lt hminor hlt)

theorem Bus.contains_of_next? {bus : Bus} (h : bus.next? a = some b) :
    (∃ column minor, b = pack f a.blockType a.half a.row column minor) ∧ bus.contains b := by
  obtain ⟨column, hcolumn, h⟩ := Option.bind_eq_some_iff.1 h
  split at h
  case h_1 next hnext =>
    obtain rfl := Option.some.inj h
    obtain ⟨⟨minor, rfl⟩, hcontains⟩ := Column.contains_of_next? hnext
    refine ⟨⟨_, minor, rfl⟩, ?_⟩
    rw [contains, column_pack_of_lt a.column_lt, hcolumn]
    exact hcontains
  case h_2 =>
    obtain ⟨⟨number, later⟩, -, h⟩ := Option.bind_eq_some_iff.1 h
    simp only at h
    split at h
    case isFalse => cases h
    case isTrue hcontains =>
      obtain rfl := Option.some.inj h
      exact ⟨⟨number, 0, rfl⟩, hcontains⟩

theorem Row.contains_of_next? {row : Row} (h : row.next? a = some b) :
    (∃ column minor, b = pack f a.blockType a.half a.row column minor) ∧ row.contains b := by
  obtain ⟨bus, hbus, h⟩ := Option.bind_eq_some_iff.1 h
  obtain ⟨⟨column, minor, rfl⟩, hcontains⟩ := Bus.contains_of_next? h
  refine ⟨⟨column, minor, rfl⟩, ?_⟩
  rw [contains, blockType_pack_blockType, hbus]
  exact hcontains

theorem Region.contains_of_firstInRow? {region : Region} {blockType : BlockType} {half : Half}
    {number : Nat} {row : Row} (h : region.firstInRow? blockType half number row = some a) :
    region.contains a := by
  obtain ⟨bus, -, h⟩ := Option.bind_eq_some_iff.1 h
  obtain ⟨column, -, h⟩ := Option.bind_eq_some_iff.1 h
  simp only at h
  split at h
  case isFalse => cases h
  case isTrue hcontains =>
    obtain rfl := Option.some.inj h
    exact hcontains

theorem Region.contains_of_first? {region : Region} {blockType : BlockType} {half : Half}
    (h : region.first? blockType half = some a) : region.contains a := by
  obtain ⟨⟨number, row⟩, -, hfirst⟩ := List.exists_of_findSome?_eq_some h
  exact Region.contains_of_firstInRow? hfirst

theorem Region.contains_of_next? {region : Region} (h : region.next? a = some b) :
    b.half = a.half ∧ region.contains b := by
  obtain ⟨row, hrow, h⟩ := Option.bind_eq_some_iff.1 h
  split at h
  case h_1 next hnext =>
    obtain rfl := Option.some.inj h
    obtain ⟨⟨column, minor, rfl⟩, hcontains⟩ := Row.contains_of_next? hnext
    refine ⟨a.half_pack_half .., ?_⟩
    rw [contains, row_pack_of_lt a.row_lt, hrow]
    exact hcontains
  case h_2 =>
    obtain ⟨⟨number, later⟩, -, hfirst⟩ := List.exists_of_findSome?_eq_some h
    refine ⟨?_, Region.contains_of_firstInRow? hfirst⟩
    obtain ⟨column, rfl⟩ := Region.eq_pack_of_firstInRow? hfirst
    exact a.half_pack_half ..

namespace Part

/-! ## Halves -/

/-- There is no bottom half where no address of the family can name one. -/
def HalvesNamed (part : Part f) : Prop :=
  match part.layout with
  | .regions _ bottom => f.addressLayout.half = none → bottom.rows.toList = []
  | .ranges _ => True

/-- A part built from addresses, from ranges, or from a geometry that is accepted, whether or not
its numbers fit. -/
inductive Obtained (part : Part f) : Prop where
  | built (h : part.Built)
  | ofGeometry (g : PartGeometry) (h : g.toPart f = .ok part)

theorem Fits.halvesNamed {part : Part f} (h : part.Fits) : part.HalvesNamed := by
  unfold Fits at h
  unfold HalvesNamed
  split
  · simp_all
  · trivial

theorem halvesNamed_of_toPart {part : Part f} {g : PartGeometry} (h : g.toPart f = .ok part) :
    part.HalvesNamed := by
  unfold HalvesNamed
  rcases PartGeometry.toPart_cases h with
    ⟨regions, top, bottom, -, -, hspartan6, -, hbottom, hlayout⟩ | ⟨ranges, -, -, hlayout⟩
  · rw [hlayout]
    exact PartGeometry.rows_bottom_eq_nil hspartan6 hbottom
  · rw [hlayout]
    trivial

theorem Obtained.halvesNamed {part : Part f} (h : part.Obtained) : part.HalvesNamed := by
  cases h with
  | built h => exact h.fits.halvesNamed
  | ofGeometry g h => exact halvesNamed_of_toPart h

section Regions
variable {part : Part f} {top bottom : Region} (hlayout : part.layout = .regions top bottom)
include hlayout

/-- The first frame of the top half. -/
theorem contains_of_first?_top {blockType : BlockType}
    (h : top.first? blockType .top = some a) : part.contains a := by
  have hcontains := Region.contains_of_first? h
  obtain ⟨-, row, column, rfl⟩ := Region.eq_pack_of_first? h
  rwa [contains_of_top hlayout (half_pack _ _ _ _ _ _ fun _ => rfl)]

/-- The first frame of the bottom half. -/
theorem contains_of_first?_bottom (hnamed : part.HalvesNamed) {blockType : BlockType}
    (h : bottom.first? blockType .bottom = some a) : part.contains a := by
  have hcontains := Region.contains_of_first? h
  obtain ⟨hne, row, column, rfl⟩ := Region.eq_pack_of_first? h
  unfold HalvesNamed at hnamed
  simp only [hlayout] at hnamed
  have hhalf : (pack f blockType .bottom row column 0).half = .bottom :=
    half_pack _ _ _ _ _ _ fun hnone => absurd (hnamed hnone) hne
  rwa [contains_of_bottom hlayout hhalf]

theorem contains_of_firstOfType? (hnamed : part.HalvesNamed) {blockType : BlockType}
    (h : firstOfType? top bottom blockType = some a) : part.contains a := by
  rcases Option.or_eq_some_iff.1 h with h | ⟨-, h⟩
  · exact contains_of_first?_top hlayout h
  · exact contains_of_first?_bottom hlayout hnamed h

theorem contains_of_nextHalf? (hnamed : part.HalvesNamed)
    (h : nextHalf? top bottom a = some b) : part.contains b := by
  rcases Option.or_eq_some_iff.1 h with h | ⟨-, h⟩
  · split at h
    case isFalse => cases h
    case isTrue => exact contains_of_first?_bottom hlayout hnamed h
  · obtain ⟨candidate, -, hfirst⟩ := List.exists_of_findSome?_eq_some h
    exact contains_of_firstOfType? hlayout hnamed hfirst

theorem contains_of_next?_regions (hnamed : part.HalvesNamed) (h : part.next? a = some b) :
    part.contains b := by
  have hregion : ∀ region : Region,
      (∀ x : FrameAddress f, x.half = a.half → part.contains x = region.contains x) →
      (if region.contains a then (region.next? a).or (nextHalf? top bottom a) else none) = some b →
        part.contains b := by
    intro region hsame h
    split at h
    case isFalse => cases h
    case isTrue =>
      rcases Option.or_eq_some_iff.1 h with h | ⟨-, h⟩
      · obtain ⟨hhalf, hcontains⟩ := Region.contains_of_next? h
        rwa [hsame b hhalf]
      · exact contains_of_nextHalf? hlayout hnamed h
  simp only [next?, hlayout] at h
  cases hhalf : a.half with
  | top =>
    refine hregion top (fun x hx => ?_) (by simpa only [hhalf] using h)
    exact contains_of_top hlayout (hx.trans hhalf)
  | bottom =>
    refine hregion bottom (fun x hx => ?_) (by simpa only [hhalf] using h)
    exact contains_of_bottom hlayout (hx.trans hhalf)

end Regions

/-- Only a frame of the part has a next. -/
theorem contains_of_next?_eq_some {part : Part f} (h : part.next? a = some b) :
    part.contains a := by
  by_cases hcontains : part.contains a
  · exact hcontains
  · rw [next?_eq_none_of_not_contains hcontains] at h
    cases h

/-- **The next frame is a frame of the part**, whatever the address and the numbers of the part. -/
theorem contains_of_next? {part : Part f} (hnamed : part.HalvesNamed)
    (h : part.next? a = some b) : part.contains b := by
  cases hlayout : part.layout with
  | regions top bottom => exact contains_of_next?_regions hlayout hnamed h
  | ranges ranges =>
    have hnext := (enumerates_of_ranges hlayout).of_next (contains_of_next?_eq_some h) h
    exact hnext.1.1

end Part
end FpgaBitstream
