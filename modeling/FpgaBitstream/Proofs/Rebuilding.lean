import FpgaBitstream.Proofs.Enumeration

/-!
# Parts rebuilt from their frames

A column is built up to its highest minor frame, so what a list of frames builds depends on the
columns it names and on how far it reaches into each.  Two lists that reach equally far
(`ReachesAlike`) fall into groups that do so too, at each level of the topology, and build the same
part (`Part.ofAddresses_eq`).  So the order of the frames, repetitions and reserved bits make no
difference, and the frames of the walk rebuild the part that is walked over
(`Part.reachesAlike_addresses`).
-/

namespace FpgaBitstream

variable {f : Family} {xs ys : List (FrameAddress f)}

namespace FrameAddress

/-- The fields of an address. -/
def fields (a : FrameAddress f) : BlockType × Half × Nat × Nat × Nat :=
  (a.blockType, a.half, a.row, a.column, a.minor)

/-- Two addresses of one column. -/
structure SameColumn (y x : FrameAddress f) : Prop where
  blockType : y.blockType = x.blockType
  half : y.half = x.half
  row : y.row = x.row
  column : y.column = x.column

theorem sameColumn_withMinor (a : FrameAddress f) (minor : Nat) :
    (a.withMinor minor).SameColumn a where
  blockType := a.blockType_pack_blockType ..
  half := a.half_pack_half ..
  row := row_pack_of_lt a.row_lt
  column := column_pack_of_lt a.column_lt

end FrameAddress

/-! ## Lists that reach equally far -/

/-- In the column of each address of the first list the second list has one that is no lower. -/
def ReachedBy (xs ys : List (FrameAddress f)) : Prop :=
  ∀ x ∈ xs, ∃ y ∈ ys, y.SameColumn x ∧ x.minor ≤ y.minor

/-- Two lists that name the same columns and reach equally far into each. -/
structure ReachesAlike (xs ys : List (FrameAddress f)) : Prop where
  left : ReachedBy xs ys
  right : ReachedBy ys xs

namespace ReachedBy

theorem of_fields (h : ∀ t ∈ xs.map (·.fields), t ∈ ys.map (·.fields)) : ReachedBy xs ys := by
  intro x hx
  obtain ⟨y, hy, hfields⟩ := List.mem_map.1 (h _ (List.mem_map_of_mem hx))
  simp only [FrameAddress.fields, Prod.mk.injEq] at hfields
  obtain ⟨hblock, hhalf, hrow, hcolumn, hminor⟩ := hfields
  exact ⟨y, hy, ⟨hblock, hhalf, hrow, hcolumn⟩, Nat.le_of_eq hminor.symm⟩

variable (h : ReachedBy xs ys)
include h

theorem ne_nil (hne : xs ≠ []) : ys ≠ [] := by
  obtain ⟨x, hx⟩ := List.exists_mem_of_ne_nil _ hne
  obtain ⟨y, hy, -⟩ := h x hx
  exact List.ne_nil_of_mem hy

/-- In each group of a field that columns have in common the lists reach as far as before. -/
theorem group {κ : Type} [DecidableEq κ] {key : FrameAddress f → κ}
    (hkey : ∀ x y, y.SameColumn x → key y = key x) (k : κ) :
    ReachedBy (xs.filter fun x => key x = k) (ys.filter fun y => key y = k) := by
  intro x hx
  obtain ⟨hmem, hk⟩ := List.mem_filter.1 hx
  obtain ⟨y, hy, hsame, hle⟩ := h x hmem
  refine ⟨y, List.mem_filter.2 ⟨hy, ?_⟩, hsame, hle⟩
  rw [decide_eq_true_iff] at hk ⊢
  rw [hkey x y hsame, hk]

theorem foldl_minor_le : xs.foldl (fun top a => max top a.minor) 0 ≤
    ys.foldl (fun top a => max top a.minor) 0 := by
  rcases le_foldl_max_iff.1 (Nat.le_refl (xs.foldl (fun top a => max top a.minor) 0)) with
    hzero | ⟨x, hx, hle⟩
  · omega
  · obtain ⟨y, hy, -, hminor⟩ := h x hx
    exact le_foldl_max_iff.2 (.inr ⟨y, hy, Nat.le_trans hle hminor⟩)

end ReachedBy

/-! ## What they build -/

namespace ReachesAlike
variable (h : ReachesAlike xs ys)
include h

theorem group {κ : Type} [DecidableEq κ] {key : FrameAddress f → κ}
    (hkey : ∀ x y, y.SameColumn x → key y = key x) (k : κ) :
    ReachesAlike (xs.filter fun x => key x = k) (ys.filter fun y => key y = k) :=
  ⟨h.left.group hkey k, h.right.group hkey k⟩

theorem eq_nil_iff : xs = [] ↔ ys = [] :=
  not_iff_not.1 ⟨h.left.ne_nil, h.right.ne_nil⟩

/-- **One level up**: what is built group by group is the same, if what is built from a group is. -/
theorem map_eq {κ ε β : Type} [Ord κ] [Std.TransOrd κ] [Std.LawfulEqOrd κ] [DecidableEq κ]
    {key : FrameAddress f → κ} (hkey : ∀ x y, y.SameColumn x → key y = key x)
    {build : List (FrameAddress f) → Except ε β} {m m' : SortedMap κ β}
    (hm : (groupByKey key xs).mapM (fun _ group => build group) = .ok m)
    (hm' : (groupByKey key ys).mapM (fun _ group => build group) = .ok m')
    (hbuild : ∀ {xs ys : List (FrameAddress f)}, ReachesAlike xs ys →
      ∀ {b b' : β}, build xs = .ok b → build ys = .ok b' → b = b') : m = m' := by
  refine eq_of_mapM_groupByKey hm hm' (fun k => ?_) (fun k b b' hb hb' => ?_)
  · exact (h.group hkey k).eq_nil_iff
  · exact hbuild (h.group hkey k) hb hb'

end ReachesAlike

theorem Column.eq_of_reachesAlike (h : ReachesAlike xs ys) {column column' : Column}
    (hx : Column.ofAddresses xs = .ok column) (hy : Column.ofAddresses ys = .ok column') :
    column = column' := by
  obtain ⟨-, -, hcount⟩ := Column.ofAddresses_eq_ok.1 hx
  obtain ⟨-, -, hcount'⟩ := Column.ofAddresses_eq_ok.1 hy
  have htop := Nat.le_antisymm h.left.foldl_minor_le h.right.foldl_minor_le
  cases column
  cases column'
  simp only at hcount hcount'
  rw [hcount, hcount', htop]

theorem Bus.eq_of_reachesAlike (h : ReachesAlike xs ys) {bus bus' : Bus}
    (hx : Bus.ofAddresses xs = .ok bus) (hy : Bus.ofAddresses ys = .ok bus') : bus = bus' := by
  have hcolumns : bus.columns = bus'.columns :=
    h.map_eq (fun _ _ hsame => hsame.column) (Bus.ofAddresses_eq_ok.1 hx).2
      (Bus.ofAddresses_eq_ok.1 hy).2 Column.eq_of_reachesAlike
  cases bus
  cases bus'
  cases hcolumns
  rfl

theorem Row.eq_of_reachesAlike (h : ReachesAlike xs ys) {row row' : Row}
    (hx : Row.ofAddresses xs = .ok row) (hy : Row.ofAddresses ys = .ok row') : row = row' := by
  have hbuses : row.buses = row'.buses :=
    h.map_eq (fun _ _ hsame => hsame.blockType) (Row.ofAddresses_eq_ok.1 hx).2
      (Row.ofAddresses_eq_ok.1 hy).2 Bus.eq_of_reachesAlike
  cases row
  cases row'
  cases hbuses
  rfl

theorem Region.eq_of_reachesAlike (h : ReachesAlike xs ys) {region region' : Region}
    (hx : Region.ofAddresses xs = .ok region) (hy : Region.ofAddresses ys = .ok region') :
    region = region' := by
  have hrows : region.rows = region'.rows :=
    h.map_eq (fun _ _ hsame => hsame.row) (Region.ofAddresses_eq_ok.1 hx).2
      (Region.ofAddresses_eq_ok.1 hy).2 Row.eq_of_reachesAlike
  cases region
  cases region'
  cases hrows
  rfl

namespace Part

/-- **Lists that reach equally far build the same part.** -/
theorem ofAddresses_eq (h : ReachesAlike xs ys) (idcode : Word) :
    Part.ofAddresses idcode ys = Part.ofAddresses idcode xs := by
  obtain ⟨part, hpart⟩ := exists_ofAddresses idcode xs
  obtain ⟨part', hpart'⟩ := exists_ofAddresses idcode ys
  obtain ⟨top, bottom, htop, hbottom, rfl⟩ := ofAddresses_eq_ok.1 hpart
  obtain ⟨top', bottom', htop', hbottom', rfl⟩ := ofAddresses_eq_ok.1 hpart'
  have hhalf (half : Half) :
      ReachesAlike (xs.filter (·.half = half)) (ys.filter (·.half = half)) :=
    h.group (fun _ _ hsame => hsame.half) half
  rw [hpart, hpart', Region.eq_of_reachesAlike (hhalf .top) htop htop',
    Region.eq_of_reachesAlike (hhalf .bottom) hbottom hbottom']

/-- The walk reaches as far as the frames the part was built from, if it goes to all their block
types. -/
theorem reachesAlike_addresses {part : Part f} {idcode : Word}
    (h : Part.ofAddresses idcode xs = .ok part)
    (hconfigurable : ∀ x ∈ xs, x.blockType ∈ BlockType.configurable) :
    ReachesAlike xs part.addresses := by
  have henumerates := enumerates_of_ofAddresses h
  constructor
  · intro x hx
    -- the walk visits the frame without its reserved bits
    have hsame := x.sameColumn_withMinor x.minor
    have hminor : (x.withMinor x.minor).minor = x.minor :=
      FrameAddress.minor_pack_of_lt x.minor_lt
    refine ⟨x.withMinor x.minor, ?_, hsame, Nat.le_of_eq hminor.symm⟩
    rw [henumerates.mem_addresses_iff]
    refine ⟨FrameAddress.canonical_pack .., ?_, ?_⟩
    · rw [hsame.blockType]
      exact hconfigurable x hx
    · rw [contains_of_ofAddresses h]
      exact ⟨x, hx, hsame.blockType.symm, hsame.half.symm, hsame.row.symm, hsame.column.symm,
        Nat.le_of_eq hminor⟩
  · intro a ha
    have hcontains := ((henumerates.mem_addresses_iff a).1 ha).contains
    obtain ⟨x, hx, hblock, hhalf, hrow, hcolumn, hminor⟩ := (contains_of_ofAddresses h a).1 hcontains
    exact ⟨x, hx, ⟨hblock, hhalf, hrow, hcolumn⟩, hminor⟩

/-- **A part is built from the set of its frames.**  Every list of addresses builds a part; any other
list in which the fields of an address take the same values builds the same one; and so do the
addresses of the whole walk over it, if all block types are configurable. -/
theorem ofAddresses_rebuilds (idcode : Word) (addresses : List (FrameAddress f)) :
    ∃ part, Part.ofAddresses idcode addresses = .ok part ∧
      (∀ others : List (FrameAddress f),
        (∀ t, t ∈ others.map (·.fields) ↔ t ∈ addresses.map (·.fields)) →
          Part.ofAddresses idcode others = .ok part) ∧
      ((∀ a ∈ addresses, a.blockType ∈ BlockType.configurable) →
        (∀ limit, part.walk limit = part.addresses.take limit) ∧
          Part.ofAddresses idcode part.addresses = .ok part) := by
  obtain ⟨part, hpart⟩ := exists_ofAddresses idcode addresses
  refine ⟨part, hpart, ?_, ?_⟩
  · intro others hfields
    have halike : ReachesAlike addresses others :=
      ⟨.of_fields fun t => (hfields t).2, .of_fields fun t => (hfields t).1⟩
    rw [ofAddresses_eq halike, hpart]
  · intro hconfigurable
    have halike := reachesAlike_addresses hpart hconfigurable
    refine ⟨(enumerates_of_ofAddresses hpart).climbs.walk_eq_take, ?_⟩
    rw [ofAddresses_eq halike, hpart]

/-- Frames of both halves, of two block types and with reserved bits, one of them above a gap. -/
def scattered : List (FrameAddress .series7) :=
  [⟨0x04800083⟩, ⟨0x00400000⟩, ⟨0x00000002⟩, ⟨0x00020000⟩]

/-- The same frames without reserved bits, in another order, and one of them twice. -/
def tidied : List (FrameAddress .series7) :=
  [⟨0x00000002⟩, ⟨0x00020000⟩, ⟨0x00800083⟩, ⟨0x00400000⟩, ⟨0x00000002⟩]

theorem ofAddresses_rebuilds_scattered :
    (∀ t, t ∈ tidied.map (·.fields) ↔ t ∈ scattered.map (·.fields)) ∧
    (∀ a ∈ scattered, a.blockType ∈ BlockType.configurable) ∧
      ∃ part, Part.ofAddresses 0 scattered = .ok part ∧ Part.ofAddresses 0 tidied = .ok part ∧
        Part.ofAddresses 0 part.addresses = .ok part := by
  obtain ⟨part, hpart, hothers, hwalk⟩ := ofAddresses_rebuilds 0 scattered
  have hfields : ∀ t, t ∈ tidied.map (·.fields) ↔ t ∈ scattered.map (·.fields) := by
    have hsub : tidied.map (·.fields) ⊆ scattered.map (·.fields) := by decide
    have hsup : scattered.map (·.fields) ⊆ tidied.map (·.fields) := by decide
    exact fun t => ⟨fun ht => hsub ht, fun ht => hsup ht⟩
  have hconfigurable : ∀ a ∈ scattered, a.blockType ∈ BlockType.configurable := by decide
  exact ⟨hfields, hconfigurable, part, hpart, hothers _ hfields, (hwalk hconfigurable).2⟩

end Part
end FpgaBitstream
