import FpgaBitstream.Proofs.WellFormedGeometry
import FpgaBitstream.Proofs.Enumeration
import FpgaBitstream.Proofs.Hex

/-!
# Descriptions of parts

The description of a part is accepted, and makes the same part, when no level of the part is empty
(`PartGeometry.toPart_ofPart_iff`).  That is so of parts that are built from frames or from ranges,
and of those that come from an accepted geometry.  In the last case the description is the geometry
itself, with each list in the order of its numbers (`RegionGeometry.sorted`).
-/

namespace FpgaBitstream

variable {f : Family}

/-! ## Lists in the order of a key -/

section SortOn
variable {α β κ : Type} [Ord κ] [Std.LawfulEqOrd κ] {key : α → κ}

theorem nodup_of_ascending {xs : List α}
    (hasc : xs.Pairwise fun a b => compare (key a) (key b) = .lt) : (xs.map key).Nodup := by
  refine List.pairwise_map.2 (hasc.imp fun {a b} hlt hsame => ?_)
  have hself : compare (key b) (key b) = .eq := Std.ReflCmp.compare_self
  rw [hsame, hself] at hlt
  cases hlt

variable [Std.TransOrd κ]

/-- A list that ascends is what any order of it is sorted to. -/
theorem eq_sortOn {xs ys : List α} (hasc : xs.Pairwise fun a b => compare (key a) (key b) = .lt)
    (hperm : xs.Perm ys) : xs = sortOn key ys := by
  have hle : xs.Pairwise fun a b => (compare (key a) (key b)).isLE :=
    hasc.imp fun hlt => by rw [hlt]; rfl
  have hsort : xs.Perm (sortOn key ys) := hperm.trans (sortOn_perm key ys).symm
  refine hsort.eq_of_pairwise (fun a b ha hb hab hba => ?_) hle (pairwise_sortOn key ys)
  have hkey : key a = key b :=
    Std.LawfulEqCmp.eq_of_compare (Std.OrientedCmp.isLE_antisymm hab hba)
  exact List.inj_on_of_nodup_map (nodup_of_ascending hasc) ha (hsort.mem_iff.2 hb) hkey

/-- **A level of a description.**  If the entries of a map are what the elements of a list stand
for, and are described as normal forms of these, then the map is described as the list of the normal
forms in the order of their keys. -/
theorem SortedMap.map_toList_eq_sortOn {m : SortedMap κ β} {elements : List α}
    (StandsFor : α → β → Prop) (normal : α → α) {describe : κ × β → α}
    (hnodup : (elements.map key).Nodup) (hexists : ∀ x ∈ elements, ∃ v, StandsFor x v)
    (hentries : ∀ k v, (k, v) ∈ m.toList ↔ ∃ x ∈ elements, key x = k ∧ StandsFor x v)
    (hkey : ∀ x, key (normal x) = key x)
    (hdescribe : ∀ x ∈ elements, ∀ v, StandsFor x v → describe (key x, v) = normal x) :
    m.toList.map describe = sortOn key (elements.map normal) := by
  have hmem (y : α) : y ∈ m.toList.map describe ↔ y ∈ elements.map normal := by
    simp only [List.mem_map]
    constructor
    · rintro ⟨⟨k, v⟩, hentry, rfl⟩
      obtain ⟨x, hx, rfl, hv⟩ := (hentries k v).1 hentry
      exact ⟨x, hx, (hdescribe x hx v hv).symm⟩
    · rintro ⟨x, hx, rfl⟩
      obtain ⟨v, hv⟩ := hexists x hx
      exact ⟨(key x, v), (hentries _ v).2 ⟨x, hx, rfl, hv⟩, hdescribe x hx v hv⟩
  have hasc : (m.toList.map describe).Pairwise fun a b => compare (key a) (key b) = .lt := by
    have hdescribed (entry : κ × β) (hentry : entry ∈ m.toList) :
        key (describe entry) = entry.1 := by
      obtain ⟨x, hx, hk, hv⟩ := (hentries _ _).1 hentry
      have hdescribed := hdescribe x hx _ hv
      rw [hk] at hdescribed
      exact (congrArg key hdescribed).trans ((hkey x).trans hk)
    refine List.pairwise_map.2 (m.ascending.imp_of_mem fun ha hb hlt => ?_)
    rw [hdescribed _ ha, hdescribed _ hb]
    exact hlt
  have hnormal : ((elements.map normal).map key).Nodup := by
    rwa [List.map_map, Function.comp_def, List.map_congr_left fun x _ => hkey x]
  exact eq_sortOn hasc
    ((List.perm_ext_iff_of_nodup (nodup_of_ascending hasc).of_map hnormal.of_map).2 hmem)

end SortOn

/-! ## The sorted form of a tree -/

/-- The columns in the order of their numbers. -/
def BusGeometry.sorted (g : BusGeometry) : BusGeometry :=
  { g with columns := sortOn ColumnGeometry.column g.columns }

/-- The buses in the order of their block types, each of them sorted. -/
def RowGeometry.sorted (g : RowGeometry) : RowGeometry :=
  { g with buses := sortOn BusGeometry.blockType (g.buses.map (·.sorted)) }

/-- The rows of either half in the order of their numbers, each of them sorted. -/
def RegionGeometry.sorted (g : RegionGeometry) : RegionGeometry where
  top := sortOn RowGeometry.row (g.top.map (·.sorted))
  bottom := sortOn RowGeometry.row (g.bottom.map (·.sorted))

theorem BusGeometry.ofBus_eq_sorted {g : BusGeometry} {bus : Bus} (hwell : g.WellFormed)
    (h : g.StandsFor bus) : ofBus g.blockType bus = g.sorted := by
  have hcolumns : bus.columns.toList.map (fun entry => ⟨entry.1, entry.2.frameCount⟩) =
      sortOn ColumnGeometry.column (g.columns.map id) := by
    refine SortedMap.map_toList_eq_sortOn (fun column built => built = ⟨column.frameCount⟩) id
      hwell.nodup (fun column _ => ⟨_, rfl⟩) (fun number built => ?_) (fun _ => rfl) ?_
    · rw [h number built]
      constructor
      · exact fun hlisted => ⟨_, hlisted, rfl, rfl⟩
      · rintro ⟨listed, hlisted, rfl, rfl⟩
        exact hlisted
    · rintro listed - _ rfl
      rfl
  rw [List.map_id] at hcolumns
  exact congrArg _ hcolumns

theorem RowGeometry.ofRow_eq_sorted {g : RowGeometry} {row : Row} (hwell : g.WellFormed)
    (h : g.StandsFor row) : ofRow g.row row = g.sorted := by
  have hbuses : row.buses.toList.map (fun entry => BusGeometry.ofBus entry.1 entry.2) =
      sortOn BusGeometry.blockType (g.buses.map (·.sorted)) :=
    SortedMap.map_toList_eq_sortOn BusGeometry.StandsFor (·.sorted) hwell.nodup
      (fun bus hbus => (hwell.buses bus hbus).exists_standsFor) h (fun _ => rfl)
      fun bus hbus _ hstands => BusGeometry.ofBus_eq_sorted (hwell.buses bus hbus) hstands
  exact congrArg _ hbuses

theorem Region.toGeometry_eq_sortOn {region : Region} {rows : List RowGeometry}
    (hnodup : (rows.map (·.row)).Nodup) (hwell : ∀ row ∈ rows, row.WellFormed)
    (h : region.HasRows rows) : region.toGeometry = sortOn RowGeometry.row (rows.map (·.sorted)) :=
  SortedMap.map_toList_eq_sortOn RowGeometry.StandsFor (·.sorted) hnodup
    (fun row hrow => (hwell row hrow).exists_standsFor) h (fun _ => rfl)
    fun row hrow _ hstands => RowGeometry.ofRow_eq_sorted (hwell row hrow) hstands

/-! ## Parts that can be described -/

/-- The bus has columns, and each of them has a frame. -/
@[mk_iff]
structure Bus.Occupied (bus : Bus) : Prop where
  columns_ne_nil : bus.columns.toList ≠ []
  populated : bus.Populated

/-- The row has buses, and each of them is occupied. -/
@[mk_iff]
structure Row.Occupied (row : Row) : Prop where
  buses_ne_nil : row.buses.toList ≠ []
  buses : ∀ blockType bus, (blockType, bus) ∈ row.buses.toList → bus.Occupied

/-- Each row of the region is occupied. -/
def Region.Occupied (region : Region) : Prop :=
  ∀ number row, (number, row) ∈ region.rows.toList → row.Occupied

/-- The part has a row or a range, no level of it is empty, and nothing lies in the bottom half
where there is no half selector. -/
def Part.Describable (part : Part f) : Prop :=
  match part.layout with
  | .regions top bottom =>
    (f = .spartan6 → bottom.rows.toList = []) ∧
      (top.rows.toList ≠ [] ∨ bottom.rows.toList ≠ []) ∧ top.Occupied ∧ bottom.Occupied
  | .ranges ranges => ranges.toList ≠ []

theorem BusGeometry.standsFor_ofBus (blockType : BlockType) (bus : Bus) :
    (ofBus blockType bus).StandsFor bus := by
  intro number column
  simp only [ofBus, List.mem_map, ColumnGeometry.mk.injEq, Prod.exists]
  constructor
  · exact fun hentry => ⟨number, column, hentry, rfl, rfl⟩
  · rintro ⟨_, ⟨_⟩, hentry, rfl, rfl⟩
    exact hentry

theorem RowGeometry.standsFor_ofRow (number : Nat) (row : Row) :
    (ofRow number row).StandsFor row := by
  intro blockType bus
  simp only [ofRow, List.mem_map, Prod.exists]
  constructor
  · exact fun hentry => ⟨_, ⟨blockType, bus, hentry, rfl⟩, rfl, BusGeometry.standsFor_ofBus _ _⟩
  · rintro ⟨_, ⟨blockType', bus', hentry, rfl⟩, rfl, hstands⟩
    rwa [hstands.unique (BusGeometry.standsFor_ofBus _ _)]

theorem Region.hasRows_toGeometry (region : Region) : region.HasRows region.toGeometry := by
  intro number row
  simp only [toGeometry, List.mem_map, Prod.exists]
  constructor
  · exact fun hentry => ⟨_, ⟨number, row, hentry, rfl⟩, rfl, RowGeometry.standsFor_ofRow _ _⟩
  · rintro ⟨_, ⟨number', row', hentry, rfl⟩, rfl, hstands⟩
    rwa [hstands.unique (RowGeometry.standsFor_ofRow _ _)]

theorem SortedMap.nodup_keys {κ α : Type} [Ord κ] [Std.LawfulEqOrd κ] (m : SortedMap κ α) :
    m.keys.Nodup := nodup_of_ascending m.ascending

theorem BusGeometry.wellFormed_ofBus_iff {blockType : BlockType} {bus : Bus} :
    (ofBus blockType bus).WellFormed ↔ bus.Occupied := by
  have hnodup : ((ofBus blockType bus).columns.map (·.column)).Nodup := by
    rw [ofBus, List.map_map]
    exact bus.columns.nodup_keys
  rw [wellFormed_iff, Bus.occupied_iff, and_iff_right hnodup, ofBus, Ne, List.map_eq_nil_iff,
    List.forall_mem_map, Prod.forall]
  rfl

theorem RowGeometry.wellFormed_ofRow_iff {number : Nat} {row : Row} :
    (ofRow number row).WellFormed ↔ row.Occupied := by
  have hnodup : ((ofRow number row).buses.map (·.blockType)).Nodup := by
    rw [ofRow, List.map_map]
    exact row.buses.nodup_keys
  rw [wellFormed_iff, Row.occupied_iff, and_iff_right hnodup, ofRow, Ne, List.map_eq_nil_iff,
    List.forall_mem_map, Prod.forall]
  simp only [BusGeometry.wellFormed_ofBus_iff]

theorem Region.toGeometry_eq_nil_iff {region : Region} :
    region.toGeometry = [] ↔ region.rows.toList = [] := List.map_eq_nil_iff

theorem RegionGeometry.wellFormed_toGeometry_iff {top bottom : Region} :
    (⟨top.toGeometry, bottom.toGeometry⟩ : RegionGeometry).WellFormed ↔
      (top.rows.toList ≠ [] ∨ bottom.rows.toList ≠ []) ∧ top.Occupied ∧ bottom.Occupied := by
  have hnodup (region : Region) : (region.toGeometry.map (·.row)).Nodup := by
    rw [Region.toGeometry, List.map_map]
    exact region.rows.nodup_keys
  have hrows (region : Region) : (∀ row ∈ region.toGeometry, row.WellFormed) ↔ region.Occupied := by
    rw [Region.toGeometry, List.forall_mem_map, Prod.forall]
    simp only [RowGeometry.wellFormed_ofRow_iff]
    rfl
  rw [wellFormed_iff_halves, and_iff_right (hnodup top), and_iff_right (hnodup bottom), hrows top,
    hrows bottom, Ne, Ne, Region.toGeometry_eq_nil_iff, Region.toGeometry_eq_nil_iff]

theorem HexField.parse_prefixed (field : HexField) (w : Word) :
    field.parse (Hex.prefixed w) = .ok w := by
  rw [parse, Hex.parse32?_prefixed]

/-- Ranges that are described are built again. -/
theorem AddressRanges.ofGeometry_map (ranges : AddressRanges) :
    AddressRanges.ofGeometry (ranges.toList.map fun range =>
      ⟨Hex.prefixed range.start, Hex.prefixed range.stop⟩) = .ok ranges := by
  have hbounds : (ranges.toList.map fun range : AddressRange =>
      (⟨Hex.prefixed range.start, Hex.prefixed range.stop⟩ : RangeGeometry)).mapM (·.bounds) =
        .ok (ranges.toList.map fun range => (range.start, range.stop)) := by
    rw [listMapM_eq_ok_iff, List.forall₂_map_left_iff, List.forall₂_map_right_iff,
      List.forall₂_same]
    exact fun range _ => RangeGeometry.bounds_eq_ok_iff.2 ⟨HexField.parse_prefixed ..,
      HexField.parse_prefixed .., BitVec.le_of_lt range.start_lt_stop⟩
  have hfollow : (ranges.toList.map fun range => (range.start, range.stop)).Pairwise
      fun a b => a.2 ≤ b.1 := List.pairwise_map.2 ranges.ascending
  rw [ofGeometry_of_follow hbounds hfollow]
  have hkept : (fun range : AddressRange => AddressRange.ofBounds? range.start range.stop) = some :=
    funext fun range => dif_pos range.start_lt_stop
  refine congrArg _ (ext_toList ?_)
  simp only [ofSorted, List.filterMap_map, Function.comp_def, hkept, List.filterMap_some]

namespace PartGeometry
variable {part : Part f}

/-- **A part comes back from its description** exactly when there is something to describe. -/
theorem toPart_ofPart_iff : (ofPart part).toPart f = .ok part ↔ part.Describable := by
  unfold Part.Describable
  cases hlayout : part.layout with
  | regions top bottom =>
    have hofPart : ofPart part =
        { idcode := Hex.prefixed part.idcode
          family := f
          regions := some ⟨top.toGeometry, bottom.toGeometry⟩ } := by
      simp only [ofPart, hlayout]
    have hstands : (⟨top.toGeometry, bottom.toGeometry⟩ : RegionGeometry).StandsFor part.layout :=
      ⟨top, bottom, hlayout, top.hasRows_toGeometry, bottom.hasRows_toGeometry⟩
    rw [hofPart, toPart_eq_ok_iff_of_regions rfl, and_iff_left hstands,
      RegionGeometry.wellFormed_toGeometry_iff]
    simp only [HexField.parse_prefixed, Region.toGeometry_eq_nil_iff, true_and]
  | ranges ranges =>
    have hofPart : ofPart part =
        { idcode := Hex.prefixed part.idcode
          family := f
          ranges := ranges.toList.map fun range =>
            ⟨Hex.prefixed range.start, Hex.prefixed range.stop⟩ } := by
      simp only [ofPart, hlayout]
    rw [hofPart, toPart_eq_ok_iff_of_ranges rfl]
    simp [HexField.parse_prefixed, AddressRanges.ofGeometry_map, hlayout]

end PartGeometry

/-! ## Parts that are built -/

section OfAddresses
variable {addresses : List (FrameAddress f)}

theorem Bus.occupied_of_ofAddresses {bus : Bus} (h : Bus.ofAddresses addresses = .ok bus)
    (hne : addresses ≠ []) : bus.Occupied :=
  ⟨toList_ne_nil_of_mapM_groupByKey (Bus.ofAddresses_eq_ok.1 h).2 hne, populated_of_ofAddresses h⟩

theorem Row.occupied_of_ofAddresses {row : Row} (h : Row.ofAddresses addresses = .ok row)
    (hne : addresses ≠ []) : row.Occupied := by
  have hbuses := (Row.ofAddresses_eq_ok.1 h).2
  refine ⟨toList_ne_nil_of_mapM_groupByKey hbuses hne, fun blockType bus hentry => ?_⟩
  obtain ⟨group, hgroup, hbus⟩ := SortedMap.mem_of_mapM hbuses hentry
  exact Bus.occupied_of_ofAddresses hbus (mem_groupByKey hgroup).2

theorem Region.occupied_of_ofAddresses {region : Region}
    (h : Region.ofAddresses addresses = .ok region) : region.Occupied := by
  intro number row hentry
  obtain ⟨group, hgroup, hrow⟩ := SortedMap.mem_of_mapM (Region.ofAddresses_eq_ok.1 h).2 hentry
  exact Row.occupied_of_ofAddresses hrow (mem_groupByKey hgroup).2

theorem Region.rows_ne_nil_of_ofAddresses {region : Region} {h : Half} {a : FrameAddress f}
    (hregion : Region.ofAddresses (addresses.filter fun x => x.half = h) = .ok region)
    (ha : a ∈ addresses) (hhalf : a.half = h) : region.rows.toList ≠ [] :=
  toList_ne_nil_of_mapM_groupByKey (Region.ofAddresses_eq_ok.1 hregion).2
    (List.ne_nil_of_mem (List.mem_filter.2 ⟨ha, decide_eq_true hhalf⟩))

end OfAddresses

namespace Part
variable {part : Part f} {idcode : Word}

theorem describable_of_ofAddresses {addresses : List (FrameAddress f)}
    (h : Part.ofAddresses idcode addresses = .ok part) (hne : addresses ≠ []) :
    part.Describable := by
  have hfits := fits_of_ofAddresses h
  obtain ⟨top, bottom, htop, hbottom, rfl⟩ := ofAddresses_eq_ok.1 h
  refine ⟨fun hspartan6 => hfits.2.2 (by rw [hspartan6]; rfl), ?_,
    Region.occupied_of_ofAddresses htop, Region.occupied_of_ofAddresses hbottom⟩
  obtain ⟨a, ha⟩ := List.exists_mem_of_ne_nil _ hne
  cases hhalf : a.half with
  | top => exact .inl (Region.rows_ne_nil_of_ofAddresses htop ha hhalf)
  | bottom => exact .inr (Region.rows_ne_nil_of_ofAddresses hbottom ha hhalf)

theorem describable_of_ofRanges {bounds : List (Word × Word)}
    (h : Part.ofRanges idcode bounds = .ok part) (hne : ∃ b ∈ bounds, b.1 < b.2) :
    part.Describable := by
  obtain ⟨ranges, hranges, h⟩ := bind_eq_ok.1 h
  obtain rfl := Except.ok.inj h
  obtain ⟨b, hb, hlt⟩ := hne
  unfold AddressRanges.ofBounds at hranges
  simp only at hranges
  split at hranges
  case isFalse => cases hranges
  case isTrue =>
    obtain rfl := Except.ok.inj hranges
    have hmem : (⟨b.1, b.2, hlt⟩ : AddressRange) ∈
        bounds.filterMap fun b => AddressRange.ofBounds? b.1 b.2 :=
      List.mem_filterMap.2 ⟨b, hb, dif_pos hlt⟩
    exact List.ne_nil_of_mem (List.mem_mergeSort.2 hmem)

end Part

/-! ## Parts of accepted geometries -/

theorem BusGeometry.WellFormed.occupied {g : BusGeometry} {bus : Bus} (hwell : g.WellFormed)
    (h : g.StandsFor bus) : bus.Occupied := by
  obtain ⟨column, hcolumn⟩ := List.exists_mem_of_ne_nil _ hwell.columns_ne_nil
  have hentry := (h column.column ⟨column.frameCount⟩).2 hcolumn
  exact ⟨List.ne_nil_of_mem hentry, fun number column hentry =>
    hwell.frames _ ((h number column).1 hentry)⟩

theorem RowGeometry.WellFormed.occupied {g : RowGeometry} {row : Row} (hwell : g.WellFormed)
    (h : g.StandsFor row) : row.Occupied := by
  obtain ⟨listed, hlisted⟩ := List.exists_mem_of_ne_nil _ hwell.buses_ne_nil
  obtain ⟨bus, hbus⟩ := (hwell.buses listed hlisted).exists_standsFor
  have hentry := (h listed.blockType bus).2 ⟨listed, hlisted, rfl, hbus⟩
  refine ⟨List.ne_nil_of_mem hentry, fun blockType bus hentry => ?_⟩
  obtain ⟨listed, hlisted, -, hstands⟩ := (h blockType bus).1 hentry
  exact (hwell.buses listed hlisted).occupied hstands

theorem Region.HasRows.occupied {region : Region} {rows : List RowGeometry}
    (h : region.HasRows rows) (hwell : ∀ row ∈ rows, row.WellFormed) : region.Occupied := by
  intro number row hentry
  obtain ⟨listed, hlisted, -, hstands⟩ := (h number row).1 hentry
  exact (hwell listed hlisted).occupied hstands

namespace PartGeometry

section Accepted
variable {g : PartGeometry} {regions : RegionGeometry} {part : Part f}
  (hregions : g.regions = some regions) (h : g.toPart f = .ok part)
include hregions h

theorem describable_of_toPart : part.Describable := by
  obtain ⟨⟨-, -, -, hspartan6, hwell⟩, top, bottom, hlayout, htop, hbottom⟩ :=
    (toPart_eq_ok_iff_of_regions hregions).1 h
  have htopNil := htop.toList_eq_nil_iff (hwell.rows .top)
  have hbottomNil := hbottom.toList_eq_nil_iff (hwell.rows .bottom)
  rw [Part.Describable, hlayout]
  refine ⟨fun hf => hbottomNil.2 (hspartan6 hf), ?_, htop.occupied (hwell.rows .top),
    hbottom.occupied (hwell.rows .bottom)⟩
  obtain ⟨_ | _, hne⟩ := hwell.rows_ne_nil
  · exact .inl fun hnil => hne (htopNil.1 hnil)
  · exact .inr fun hnil => hne (hbottomNil.1 hnil)

/-- **The description of an accepted tree** is the tree in order, with its IDCODE in the form in
which it is printed. -/
theorem ofPart_of_toPart :
    ofPart part =
      { g with idcode := Hex.prefixed part.idcode, regions := some regions.sorted } := by
  obtain ⟨⟨hfamily, -, hranges, -, hwell⟩, top, bottom, hlayout, htop, hbottom⟩ :=
    (toPart_eq_ok_iff_of_regions hregions).1 h
  have hsorted : (⟨top.toGeometry, bottom.toGeometry⟩ : RegionGeometry) = regions.sorted := by
    rw [Region.toGeometry_eq_sortOn (hwell.nodup .top) (hwell.rows .top) htop,
      Region.toGeometry_eq_sortOn (hwell.nodup .bottom) (hwell.rows .bottom) hbottom]
    rfl
  simp only [ofPart, hlayout, hsorted, hfamily, hranges]

end Accepted

/-- **Describing a part loses nothing.**  A part that is built from frames, or from ranges of which
one is not empty, comes back from its description.  So does the part of an accepted tree, and its
description is the tree in order, with its IDCODE in the form in which it is printed. -/
theorem toPart_ofPart (f : Family) :
    (∀ idcode (addresses : List (FrameAddress f)), addresses ≠ [] →
      ∃ part, Part.ofAddresses idcode addresses = .ok part ∧
        (ofPart part).toPart f = .ok part) ∧
    (∀ idcode bounds (part : Part f), Part.ofRanges idcode bounds = .ok part →
      (∃ b ∈ bounds, b.1 < b.2) → (ofPart part).toPart f = .ok part) ∧
    ∀ (g : PartGeometry) (regions : RegionGeometry) (part : Part f),
      g.regions = some regions → g.toPart f = .ok part →
        HexField.idcode.parse g.idcode = .ok part.idcode ∧
        ofPart part =
          { g with idcode := Hex.prefixed part.idcode, regions := some regions.sorted } ∧
        (ofPart part).toPart f = .ok part := by
  refine ⟨fun idcode addresses hne => ?_, fun idcode bounds part h hne => ?_,
    fun g regions part hregions h => ⟨?_, ofPart_of_toPart hregions h, ?_⟩⟩
  · obtain ⟨part, hpart⟩ := Part.exists_ofAddresses idcode addresses
    exact ⟨part, hpart, toPart_ofPart_iff.2 (Part.describable_of_ofAddresses hpart hne)⟩
  · exact toPart_ofPart_iff.2 (Part.describable_of_ofRanges h hne)
  · exact ((toPart_eq_ok_iff_of_regions hregions).1 h).1.2.1
  · exact toPart_ofPart_iff.2 (describable_of_toPart hregions h)

/-- The tree that is out of order, in order. -/
def inOrder : PartGeometry where
  idcode := "0x0362d093"
  family := .series7
  regions := some
    { top := [⟨0, [⟨.clbIoClk, [⟨0, 1⟩]⟩]⟩,
        ⟨1, [⟨.clbIoClk, [⟨3, 2⟩, ⟨5, 1⟩]⟩, ⟨.blockRam, [⟨2, 1⟩]⟩]⟩]
      bottom := [⟨31, [⟨.cfgClb, [⟨1023, 128⟩]⟩]⟩] }

theorem toPart_ofPart_outOfOrder :
    ∃ (regions : RegionGeometry) (part : Part .series7), outOfOrder.regions = some regions ∧
      outOfOrder.toPart .series7 = .ok part ∧ inOrder.regions = some regions.sorted ∧
      ofPart part = inOrder ∧ inOrder.toPart .series7 = .ok part := by
  have haccepted : (outOfOrder.toPart .series7).toOption.map ofPart = some inOrder := by
    decide +kernel
  obtain ⟨part, hpart, hofPart⟩ := Option.map_eq_some_iff.1 haccepted
  have hpart := eq_ok_of_toOption hpart
  obtain ⟨-, hsorted, hback⟩ := (toPart_ofPart .series7).2.2 outOfOrder _ part rfl hpart
  rw [hofPart] at hsorted hback
  exact ⟨_, part, rfl, hpart, congrArg PartGeometry.regions hsorted, hofPart, hback⟩

end PartGeometry

end FpgaBitstream
