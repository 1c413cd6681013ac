import FpgaBitstream.Proofs.Geometry
import Mathlib.Tactic.MkIffOfInductiveProp

/-!
# Well-formed geometries

A tree of rows, buses and columns can be built when no level is empty, no number stands twice on a
level and no column is without frames (`RegionGeometry.WellFormed`), and what is built is what the
lists say (`PartGeometry.toPart_eq_ok_iff_of_regions`).  The same holds of each level for itself, as
all of them are maps that are built entry by entry (`SortedMap.exists_level_iff`).

If the numbers fit the address fields, each level of the tree sets a field of the addresses, so that
no frame is listed twice.  The walk over the part then goes through the listed frames in ascending
order (`PartGeometry.toPart_of_regions`).
-/

namespace FpgaBitstream

variable {f : Family}

/-! ## Maps built entry by entry -/

namespace SortedMap
variable {κ α β ε : Type} [Ord κ] [Std.TransOrd κ]

theorem insertNew_eq_ok_iff {m m' : SortedMap κ α} {key : κ} {value : α} {taken : ε} :
    m.insertNew key value taken = .ok m' ↔ m.get? key = none ∧ m' = m.insert key value := by
  unfold insertNew contains
  cases hget : m.get? key with
  | none => simp [eq_comm]
  | some old => simp

variable [Std.LawfulEqOrd κ]

theorem eq_of_mem_iff {a b : SortedMap κ α}
    (h : ∀ entry, entry ∈ a.toList ↔ entry ∈ b.toList) : a = b := by
  refine ext_get? fun key => Option.ext fun value => ?_
  rw [← mem_toList_iff, ← mem_toList_iff, h]

variable [DecidableEq κ]

theorem get?_insert_eq_none_iff {m : SortedMap κ α} {key key' : κ} {value : α} :
    (m.insert key value).get? key' = none ↔ key' ≠ key ∧ m.get? key' = none := by
  rw [get?_insert]
  split
  case isTrue hsame => simp [hsame]
  case isFalse hne => exact (and_iff_right hne).symm

variable (key : α → κ) (value : α → Except ε β) (taken : α → ε)
  {step : SortedMap κ β → α → Except ε (SortedMap κ β)}
  (hstep : ∀ m x, step m x = do m.insertNew (key x) (← value x) (taken x)) (elements : List α)
include hstep

/-- **A map can be built entry by entry** when the keys differ and each value can be built. -/
theorem exists_foldlM_iff :
    (∃ built, elements.foldlM step .empty = .ok built) ↔
      (elements.map key).Nodup ∧ ∀ x ∈ elements, ∃ v, value x = .ok v := by
  -- built onto a map, the elements must have other keys than the map has
  suffices hfrom : ∀ m, (∃ built, elements.foldlM step m = .ok built) ↔
      ((∀ x ∈ elements, m.get? (key x) = none) ∧ (elements.map key).Nodup) ∧
        ∀ x ∈ elements, ∃ v, value x = .ok v by
    exact (hfrom .empty).trans (and_congr_left fun _ => and_iff_right fun _ _ => rfl)
  induction elements with
  | nil => exact fun m => iff_of_true ⟨m, rfl⟩ (by simp)
  | cons x rest ih =>
    intro m
    simp only [List.foldlM_cons, bind_eq_ok, hstep, insertNew_eq_ok_iff, List.map_cons,
      List.nodup_cons, List.mem_map, List.forall_mem_cons]
    constructor
    · rintro ⟨built, _, ⟨v, hv, hnew, rfl⟩, hrest⟩
      obtain ⟨⟨hfresh, hdistinct⟩, hvalues⟩ := (ih _).1 ⟨built, hrest⟩
      have hfresh (y : α) (hy : y ∈ rest) : key y ≠ key x ∧ m.get? (key y) = none :=
        get?_insert_eq_none_iff.1 (hfresh y hy)
      refine ⟨⟨⟨hnew, fun y hy => (hfresh y hy).2⟩, ?_, hdistinct⟩, ⟨v, hv⟩, hvalues⟩
      rintro ⟨y, hy, hkey⟩
      exact (hfresh y hy).1 hkey
    · rintro ⟨⟨⟨hnew, hfresh⟩, hother, hdistinct⟩, ⟨v, hv⟩, hvalues⟩
      have hrest (y : α) (hy : y ∈ rest) : (m.insert (key x) v).get? (key y) = none :=
        get?_insert_eq_none_iff.2 ⟨fun hkey => hother ⟨y, hy, hkey⟩, hfresh y hy⟩
      obtain ⟨built, hbuilt⟩ := (ih (m.insert (key x) v)).2 ⟨⟨hrest, hdistinct⟩, hvalues⟩
      exact ⟨built, _, ⟨v, hv, hnew, rfl⟩, hbuilt⟩

theorem isEmpty_of_foldlM {built : SortedMap κ β} (h : elements.foldlM step .empty = .ok built) :
    built.isEmpty ↔ elements = [] := by
  obtain ⟨hvalues, hmem⟩ := mem_toList_foldlM key value taken hstep h
  rw [isEmpty, List.isEmpty_iff]
  constructor
  · intro hnil
    refine List.eq_nil_iff_forall_not_mem.2 fun x hx => ?_
    obtain ⟨v, hv⟩ := hvalues x hx
    have hentry := (hmem (key x, v)).2 ⟨x, hx, rfl, hv⟩
    rw [hnil] at hentry
    cases hentry
  · rintro rfl
    obtain rfl := Except.ok.inj h
    rfl

/-- A level of a tree can be built if there is anything that it is made of, besides. -/
theorem exists_level_iff {γ : Type} {wrap : SortedMap κ β → γ} {none : ε} :
    (∃ level, (do
      let m ← elements.foldlM step .empty
      if m.isEmpty then throw none
      return wrap m) = .ok level) ↔
      elements ≠ [] ∧ (elements.map key).Nodup ∧ ∀ x ∈ elements, ∃ v, value x = .ok v := by
  rw [← exists_foldlM_iff key value taken hstep]
  simp only [bind_eq_ok, check_eq_ok]
  constructor
  · rintro ⟨_, m, hm, hne, -⟩
    exact ⟨fun hnil => hne ((isEmpty_of_foldlM key value taken hstep _ hm).2 hnil), m, hm⟩
  · rintro ⟨hne, m, hm⟩
    exact ⟨_, m, hm, fun hnil => hne ((isEmpty_of_foldlM key value taken hstep _ hm).1 hnil), rfl⟩

end SortedMap

/-! ## Well-formed descriptions -/

/-- A bus has columns, each with a number of its own and with a frame. -/
@[mk_iff]
structure BusGeometry.WellFormed (g : BusGeometry) : Prop where
  columns_ne_nil : g.columns ≠ []
  nodup : (g.columns.map (·.column)).Nodup
  frames : ∀ column ∈ g.columns, 1 ≤ column.frameCount

/-- A row has buses, each of a block type of its own. -/
@[mk_iff]
structure RowGeometry.WellFormed (g : RowGeometry) : Prop where
  buses_ne_nil : g.buses ≠ []
  nodup : (g.buses.map (·.blockType)).Nodup
  buses : ∀ bus ∈ g.buses, bus.WellFormed

/-- There is a row, and in each half the rows have numbers of their own. -/
@[mk_iff]
structure RegionGeometry.WellFormed (g : RegionGeometry) : Prop where
  rows_ne_nil : ∃ half, g.rows half ≠ []
  nodup : ∀ half, ((g.rows half).map (·.row)).Nodup
  rows : ∀ half, ∀ row ∈ g.rows half, row.WellFormed

theorem Half.forall_iff {p : Half → Prop} : (∀ half, p half) ↔ p .top ∧ p .bottom := by
  constructor
  · exact fun h => ⟨h .top, h .bottom⟩
  · rintro ⟨htop, hbottom⟩ (_ | _)
    · exact htop
    · exact hbottom

theorem Half.exists_iff {p : Half → Prop} : (∃ half, p half) ↔ p .top ∨ p .bottom := by
  constructor
  · rintro ⟨_ | _, h⟩
    · exact .inl h
    · exact .inr h
  · rintro (h | h)
    · exact ⟨.top, h⟩
    · exact ⟨.bottom, h⟩

theorem RegionGeometry.wellFormed_iff_halves {g : RegionGeometry} :
    g.WellFormed ↔ (g.top ≠ [] ∨ g.bottom ≠ []) ∧
      ((g.top.map (·.row)).Nodup ∧ ∀ row ∈ g.top, row.WellFormed) ∧
      (g.bottom.map (·.row)).Nodup ∧ ∀ row ∈ g.bottom, row.WellFormed := by
  rw [wellFormed_iff, Half.exists_iff, Half.forall_iff, Half.forall_iff, and_and_and_comm]
  rfl

/-! ## What a description stands for -/

/-- The bus has the columns that are listed, and no other. -/
def BusGeometry.StandsFor (g : BusGeometry) (bus : Bus) : Prop :=
  ∀ number column, (number, column) ∈ bus.columns.toList ↔ ⟨number, column.frameCount⟩ ∈ g.columns

/-- The row has the buses that are listed, and no other. -/
def RowGeometry.StandsFor (g : RowGeometry) (row : Row) : Prop :=
  ∀ blockType bus, (blockType, bus) ∈ row.buses.toList ↔
    ∃ listed ∈ g.buses, listed.blockType = blockType ∧ listed.StandsFor bus

/-- The region has the rows that are listed, and no other. -/
def Region.HasRows (region : Region) (rows : List RowGeometry) : Prop :=
  ∀ number row, (number, row) ∈ region.rows.toList ↔
    ∃ listed ∈ rows, listed.row = number ∧ listed.StandsFor row

/-! ## Levels that can be built -/

/-- A computation that succeeds under a condition, with a result that fits as no other does. -/
theorem eq_ok_iff_of_unique {ε α : Type} {x : Except ε α} {condition : Prop}
    {Fits : α → Prop} (hexists : (∃ a, x = .ok a) ↔ condition) (hfits : ∀ a, x = .ok a → Fits a)
    (hunique : ∀ a b, Fits a → Fits b → a = b) (a : α) : x = .ok a ↔ condition ∧ Fits a := by
  constructor
  · exact fun h => ⟨hexists.1 ⟨a, h⟩, hfits a h⟩
  · rintro ⟨hcondition, ha⟩
    obtain ⟨built, hbuilt⟩ := hexists.2 hcondition
    rw [hbuilt, hunique built a (hfits built hbuilt) ha]

namespace BusGeometry
variable {g : BusGeometry} {number : Nat} {bus bus' : Bus}

theorem StandsFor.unique (h : g.StandsFor bus) (h' : g.StandsFor bus') : bus = bus' := by
  have hcolumns : bus.columns = bus'.columns := SortedMap.eq_of_mem_iff fun (number, column) =>
    (h number column).trans (h' number column).symm
  cases bus
  cases bus'
  exact congrArg _ hcolumns

theorem exists_toBus_iff : (∃ bus, g.toBus number = .ok bus) ↔ g.WellFormed := by
  unfold toBus
  rw [SortedMap.exists_level_iff ColumnGeometry.column (g.toColumn number)
    (fun column => .columnTwice number g.blockType column.column)]
  · simp only [toColumn_eq_ok_iff, exists_and_left, exists_eq, and_true]
    exact g.wellFormed_iff.symm
  · intro m column
    unfold toColumn
    split <;> rfl

theorem standsFor_of_toBus (h : g.toBus number = .ok bus) : g.StandsFor bus := by
  have hframes := (exists_toBus_iff.1 ⟨bus, h⟩).frames
  intro column ⟨frameCount⟩
  rw [mem_columns_of_toBus h]
  constructor
  · rintro ⟨listed, hlisted, rfl, -, hcount⟩
    obtain rfl := Column.mk.inj hcount
    exact hlisted
  · exact fun hlisted => ⟨_, hlisted, rfl, hframes _ hlisted, rfl⟩

/-- **A bus can be built** from what is well formed, and is the one that this stands for. -/
theorem toBus_eq_ok_iff : g.toBus number = .ok bus ↔ g.WellFormed ∧ g.StandsFor bus :=
  eq_ok_iff_of_unique exists_toBus_iff (fun _ => standsFor_of_toBus)
    (fun _ _ => StandsFor.unique) bus

theorem WellFormed.exists_standsFor (h : g.WellFormed) : ∃ bus, g.StandsFor bus := by
  have hbuilt : ∃ bus, g.toBus 0 = .ok bus := exists_toBus_iff.2 h
  exact hbuilt.imp fun _ hbus => standsFor_of_toBus hbus

end BusGeometry

namespace RowGeometry
variable {g : RowGeometry} {row row' : Row}

theorem StandsFor.unique (h : g.StandsFor row) (h' : g.StandsFor row') : row = row' := by
  have hbuses : row.buses = row'.buses := SortedMap.eq_of_mem_iff fun (blockType, bus) =>
    (h blockType bus).trans (h' blockType bus).symm
  cases row
  cases row'
  exact congrArg _ hbuses

theorem exists_toRow_iff : (∃ row, g.toRow = .ok row) ↔ g.WellFormed := by
  unfold toRow
  rw [SortedMap.exists_level_iff BusGeometry.blockType (·.toBus g.row)
    (fun bus => LayoutError.busTwice g.row bus.blockType) (fun _ _ => rfl)]
  simp only [BusGeometry.exists_toBus_iff]
  exact g.wellFormed_iff.symm

theorem standsFor_of_toRow (h : g.toRow = .ok row) : g.StandsFor row := by
  have hbuses := (exists_toRow_iff.1 ⟨row, h⟩).buses
  intro blockType bus
  rw [(mem_buses_of_toRow h).2]
  simp only [BusGeometry.toBus_eq_ok_iff]
  constructor
  · rintro ⟨listed, hlisted, rfl, -, hstands⟩
    exact ⟨listed, hlisted, rfl, hstands⟩
  · rintro ⟨listed, hlisted, rfl, hstands⟩
    exact ⟨listed, hlisted, rfl, hbuses listed hlisted, hstands⟩

/-- **A row can be built** from what is well formed, and is the one that this stands for. -/
theorem toRow_eq_ok_iff : g.toRow = .ok row ↔ g.WellFormed ∧ g.StandsFor row :=
  eq_ok_iff_of_unique exists_toRow_iff (fun _ => standsFor_of_toRow)
    (fun _ _ => StandsFor.unique) row

theorem WellFormed.exists_standsFor (h : g.WellFormed) : ∃ row, g.StandsFor row :=
  (exists_toRow_iff.2 h).imp fun _ hrow => standsFor_of_toRow hrow

end RowGeometry

namespace Region
variable {rows : List RowGeometry} {region region' : Region}

theorem HasRows.unique (h : region.HasRows rows) (h' : region'.HasRows rows) :
    region = region' := by
  have hrows : region.rows = region'.rows := SortedMap.eq_of_mem_iff fun (number, row) =>
    (h number row).trans (h' number row).symm
  cases region
  cases region'
  exact congrArg _ hrows

theorem exists_ofGeometry_iff :
    (∃ region, Region.ofGeometry rows = .ok region) ↔
      (rows.map (·.row)).Nodup ∧ ∀ row ∈ rows, row.WellFormed := by
  have hfold := SortedMap.exists_foldlM_iff RowGeometry.row RowGeometry.toRow
    (fun row => LayoutError.rowTwice row.row) (fun _ _ => rfl) rows
  simp only [RowGeometry.exists_toRow_iff] at hfold
  rw [← hfold]
  simp only [ofGeometry, bind_eq_ok]
  constructor
  · rintro ⟨_, built, hbuilt, -⟩
    exact ⟨built, hbuilt⟩
  · rintro ⟨built, hbuilt⟩
    exact ⟨_, built, hbuilt, rfl⟩

theorem hasRows_of_ofGeometry (h : Region.ofGeometry rows = .ok region) : region.HasRows rows := by
  have hwell := (exists_ofGeometry_iff.1 ⟨region, h⟩).2
  intro number row
  rw [(mem_rows_of_ofGeometry h).2]
  simp only [RowGeometry.toRow_eq_ok_iff]
  constructor
  · rintro ⟨listed, hlisted, rfl, -, hstands⟩
    exact ⟨listed, hlisted, rfl, hstands⟩
  · rintro ⟨listed, hlisted, rfl, hstands⟩
    exact ⟨listed, hlisted, rfl, hwell listed hlisted, hstands⟩

/-- **A region can be built** from well-formed rows with numbers of their own, and is the one that
has these rows. -/
theorem ofGeometry_eq_ok_iff :
    Region.ofGeometry rows = .ok region ↔
      ((rows.map (·.row)).Nodup ∧ ∀ row ∈ rows, row.WellFormed) ∧ region.HasRows rows :=
  eq_ok_iff_of_unique exists_ofGeometry_iff (fun _ => hasRows_of_ofGeometry)
    (fun _ _ => HasRows.unique) region

theorem HasRows.toList_eq_nil_iff (h : region.HasRows rows)
    (hwell : ∀ row ∈ rows, row.WellFormed) : region.rows.toList = [] ↔ rows = [] := by
  constructor
  · intro hnil
    refine List.eq_nil_iff_forall_not_mem.2 fun listed hlisted => ?_
    obtain ⟨row, hrow⟩ := (hwell listed hlisted).exists_standsFor
    have hentry := (h listed.row row).2 ⟨listed, hlisted, rfl, hrow⟩
    rw [hnil] at hentry
    cases hentry
  · rintro rfl
    refine List.eq_nil_iff_forall_not_mem.2 fun (number, row) hentry => ?_
    obtain ⟨listed, hlisted, -⟩ := (h number row).1 hentry
    cases hlisted

theorem isEmpty_of_ofGeometry (h : Region.ofGeometry rows = .ok region) :
    region.isEmpty ↔ rows = [] := by
  obtain ⟨⟨-, hwell⟩, hrows⟩ := ofGeometry_eq_ok_iff.1 h
  rw [isEmpty, SortedMap.isEmpty, List.isEmpty_iff]
  exact hrows.toList_eq_nil_iff hwell

end Region

/-! ## Ranges that are accepted -/

theorem AddressRanges.ext_toList {a b : AddressRanges} (h : a.toList = b.toList) : a = b := by
  cases a
  cases b
  cases h
  rfl

theorem firstOverlap?_eq_none_iff {bounds : List (Word × Word)}
    (hsorted : bounds.Pairwise fun a b => a.1 ≤ b.1) :
    firstOverlap? bounds = none ↔ bounds.Pairwise fun a b => a.2 ≤ b.1 := by
  refine ⟨firstOverlap?_eq_none hsorted, fun h => ?_⟩
  fun_induction firstOverlap? bounds with
  | case1 a b rest hreaches =>
    exact absurd (List.rel_of_pairwise_cons h List.mem_cons_self) (BitVec.not_le.2 hreaches)
  | case2 a b rest _ ih => exact ih hsorted.of_cons h.of_cons
  | case3 => rfl

/-- **Ranges are accepted** if they follow one another in the order of their starts. -/
theorem AddressRanges.ofGeometry_eq_ok_iff {ranges : List RangeGeometry} {built : AddressRanges} :
    AddressRanges.ofGeometry ranges = .ok built ↔
      ∃ bounds, ranges.mapM (·.bounds) = .ok bounds ∧
        ∃ hfollow, built = .ofSorted (sortBounds bounds) hfollow := by
  unfold ofGeometry
  simp only [bind_eq_ok]
  refine exists_congr fun bounds => and_congr_right fun _ => ?_
  have hiff := firstOverlap?_eq_none_iff (sortBounds_sorted bounds)
  split
  case h_1 hoverlap =>
    constructor
    · intro h
      cases h
    · rintro ⟨hfollow, -⟩
      rw [hiff.2 hfollow] at hoverlap
      cases hoverlap
  case h_2 hnone =>
    constructor
    · exact fun h => ⟨hiff.1 hnone, (Except.ok.inj h).symm⟩
    · rintro ⟨-, rfl⟩
      rfl

theorem RangeGeometry.bounds_eq_ok_iff {g : RangeGeometry} {bounds : Word × Word} :
    g.bounds = .ok bounds ↔ HexField.rangeStart.parse g.start = .ok bounds.1 ∧
      HexField.rangeStop.parse g.stop = .ok bounds.2 ∧ bounds.1 ≤ bounds.2 := by
  obtain ⟨start, stop⟩ := bounds
  simp only [RangeGeometry.bounds, bind_eq_ok, check_eq_ok]
  constructor
  · rintro ⟨_, hstart, _, hstop, hle, h⟩
    obtain ⟨rfl, rfl⟩ := Prod.mk.inj (Except.ok.inj h)
    exact ⟨hstart, hstop, BitVec.not_lt.1 hle⟩
  · rintro ⟨hstart, hstop, hle⟩
    exact ⟨start, hstart, stop, hstop, BitVec.not_lt.2 hle, rfl⟩

theorem RangeGeometry.le_of_mapM_bounds {ranges : List RangeGeometry} {bounds : List (Word × Word)}
    (h : ranges.mapM (·.bounds) = .ok bounds) : ∀ a ∈ bounds, a.1 ≤ a.2 := by
  intro a ha
  obtain ⟨range, -, hrange⟩ := (mem_of_listMapM h a).1 ha
  exact (bounds_eq_ok_iff.1 hrange).2.2

/-- Ranges that follow one another as they are listed are accepted. -/
theorem AddressRanges.ofGeometry_of_follow {ranges : List RangeGeometry}
    {bounds : List (Word × Word)} (hbounds : ranges.mapM (·.bounds) = .ok bounds)
    (hfollow : bounds.Pairwise fun a b => a.2 ≤ b.1) :
    AddressRanges.ofGeometry ranges = .ok (.ofSorted bounds hfollow) := by
  have hle := RangeGeometry.le_of_mapM_bounds hbounds
  have hsorted : bounds.Pairwise fun a b => startsNoLater a b :=
    hfollow.imp_of_mem fun ha _ h => decide_eq_true (BitVec.le_trans (hle _ ha) h)
  have hsort : sortBounds bounds = bounds := List.mergeSort_of_pairwise hsorted
  refine ofGeometry_eq_ok_iff.2 ⟨bounds, hbounds, ?_⟩
  simp only [hsort]
  exact ⟨hfollow, trivial⟩

/-! ## Geometries that are accepted -/

/-- The layout has the rows that are listed in either half, and no other. -/
def RegionGeometry.StandsFor (g : RegionGeometry) (layout : Layout) : Prop :=
  ∃ top bottom, layout = .regions top bottom ∧ top.HasRows g.top ∧ bottom.HasRows g.bottom

namespace PartGeometry
variable {g : PartGeometry} {regions : RegionGeometry} {part : Part f}

/-- **A tree is accepted** when all that is said of it can be read and it is well formed.  The part
is the one that it stands for. -/
theorem toPart_eq_ok_iff_of_regions (hregions : g.regions = some regions) :
    g.toPart f = .ok part ↔
      (g.family = f ∧ HexField.idcode.parse g.idcode = .ok part.idcode ∧ g.ranges = [] ∧
        (f = .spartan6 → regions.bottom = []) ∧ regions.WellFormed) ∧
      regions.StandsFor part.layout := by
  have hempty (top bottom : Region) (htop : Region.ofGeometry regions.top = .ok top)
      (hbottom : Region.ofGeometry regions.bottom = .ok bottom) :
      ¬ (top.isEmpty && bottom.isEmpty) ↔ regions.top ≠ [] ∨ regions.bottom ≠ [] := by
    rw [Bool.and_eq_true, Region.isEmpty_of_ofGeometry htop,
      Region.isEmpty_of_ofGeometry hbottom, not_and_or]
  have hfamily : ¬ g.family ≠ f ↔ g.family = f := not_not
  have hbottomHalf : ¬ (f = .spartan6 ∧ regions.bottom ≠ []) ↔
      (f = .spartan6 → regions.bottom = []) := by
    rw [not_and, not_not]
  unfold toPart
  rw [hregions]
  cases hranges : g.ranges with
  | cons range rest =>
    simp only [check_eq_ok, bind_eq_ok]
    constructor
    · rintro ⟨-, idcode, -, h⟩
      cases h
    · rintro ⟨⟨-, -, hnil, -⟩, -⟩
      cases hnil
  | nil =>
    simp only [check_eq_ok, bind_eq_ok, mapError_eq_ok, hfamily, hbottomHalf]
    constructor
    · rintro ⟨hsame, idcode, hidcode, hspartan6, top, htop, bottom, hbottom, hne, h⟩
      obtain rfl := Except.ok.inj h
      obtain ⟨htopWell, hhasTop⟩ := Region.ofGeometry_eq_ok_iff.1 htop
      obtain ⟨hbottomWell, hhasBottom⟩ := Region.ofGeometry_eq_ok_iff.1 hbottom
      have hwell := RegionGeometry.wellFormed_iff_halves.2
        ⟨(hempty _ _ htop hbottom).1 hne, htopWell, hbottomWell⟩
      exact ⟨⟨hsame, hidcode, trivial, hspartan6, hwell⟩, top, bottom, rfl, hhasTop, hhasBottom⟩
    · rintro ⟨⟨hsame, hidcode, -, hspartan6, hwell⟩, top, bottom, hlayout, hhasTop, hhasBottom⟩
      obtain ⟨hne, htopWell, hbottomWell⟩ := RegionGeometry.wellFormed_iff_halves.1 hwell
      have htop := Region.ofGeometry_eq_ok_iff.2 ⟨htopWell, hhasTop⟩
      have hbottom := Region.ofGeometry_eq_ok_iff.2 ⟨hbottomWell, hhasBottom⟩
      refine ⟨hsame, _, hidcode, hspartan6, top, htop, bottom, hbottom,
        (hempty _ _ htop hbottom).2 hne, ?_⟩
      rw [← hlayout]
      rfl

theorem exists_toPart_iff_of_regions (hregions : g.regions = some regions) :
    (∃ part : Part f, g.toPart f = .ok part) ↔
      g.family = f ∧ (∃ idcode, HexField.idcode.parse g.idcode = .ok idcode) ∧ g.ranges = [] ∧
        (f = .spartan6 → regions.bottom = []) ∧ regions.WellFormed := by
  simp only [toPart_eq_ok_iff_of_regions hregions]
  constructor
  · rintro ⟨part, ⟨hfamily, hidcode, hranges, hspartan6, hwell⟩, -⟩
    exact ⟨hfamily, ⟨_, hidcode⟩, hranges, hspartan6, hwell⟩
  · rintro ⟨hfamily, ⟨idcode, hidcode⟩, hranges, hspartan6, hwell⟩
    obtain ⟨-, htopWell, hbottomWell⟩ := RegionGeometry.wellFormed_iff_halves.1 hwell
    obtain ⟨top, htop⟩ := Region.exists_ofGeometry_iff.2 htopWell
    obtain ⟨bottom, hbottom⟩ := Region.exists_ofGeometry_iff.2 hbottomWell
    exact ⟨⟨idcode, .regions top bottom⟩, ⟨hfamily, hidcode, hranges, hspartan6, hwell⟩, top,
      bottom, rfl, Region.hasRows_of_ofGeometry htop, Region.hasRows_of_ofGeometry hbottom⟩

/-- **A list of ranges is accepted** when all that is said of it can be read, there is a range, and
they can be built. -/
theorem toPart_eq_ok_iff_of_ranges (hregions : g.regions = none) :
    g.toPart f = .ok part ↔
      g.family = f ∧ HexField.idcode.parse g.idcode = .ok part.idcode ∧ g.ranges ≠ [] ∧
        ∃ ranges, AddressRanges.ofGeometry g.ranges = .ok ranges ∧
          part.layout = .ranges ranges := by
  have hfamily : ¬ g.family ≠ f ↔ g.family = f := not_not
  unfold toPart
  rw [hregions]
  cases hranges : g.ranges with
  | nil =>
    simp only [check_eq_ok, bind_eq_ok]
    constructor
    · rintro ⟨-, idcode, -, h⟩
      cases h
    · rintro ⟨-, -, hne, -⟩
      exact absurd rfl hne
  | cons range rest =>
    simp only [check_eq_ok, bind_eq_ok, hfamily]
    constructor
    · rintro ⟨hsame, idcode, hidcode, ranges, hbuilt, h⟩
      obtain rfl := Except.ok.inj h
      exact ⟨hsame, hidcode, List.cons_ne_nil _ _, ranges, hbuilt, rfl⟩
    · rintro ⟨hsame, hidcode, -, ranges, hbuilt, hlayout⟩
      refine ⟨hsame, _, hidcode, ranges, hbuilt, ?_⟩
      rw [← hlayout]
      rfl

end PartGeometry

/-! ## The frames that a tree lists -/

/-- The frames of the listed columns of a row. -/
def RowGeometry.frames (f : Family) (half : Half) (g : RowGeometry) : List (FrameAddress f) :=
  g.buses.flatMap fun bus => bus.columns.flatMap fun column =>
    (List.range column.frameCount).map (.pack f bus.blockType half g.row column.column)

namespace RegionGeometry

/-- The frames of the listed columns. -/
def frames (f : Family) (g : RegionGeometry) : List (FrameAddress f) :=
  [Half.top, Half.bottom].flatMap fun half => (g.rows half).flatMap (·.frames f half)

/-- All block types of a tree are configurable. -/
def Configurable (g : RegionGeometry) : Prop :=
  ∀ half, ∀ row ∈ g.rows half, ∀ bus ∈ row.buses, bus.blockType ∈ BlockType.configurable

end RegionGeometry

theorem RowGeometry.mem_frames_iff {g : RowGeometry} {half : Half} {a : FrameAddress f} :
    a ∈ g.frames f half ↔ ∃ bus ∈ g.buses, ∃ column ∈ bus.columns,
      ∃ minor < column.frameCount, .pack f bus.blockType half g.row column.column minor = a := by
  simp [frames]

theorem RegionGeometry.mem_frames_iff {g : RegionGeometry} {a : FrameAddress f} :
    a ∈ g.frames f ↔ ∃ half, ∃ row ∈ g.rows half, a ∈ row.frames f half := by
  simp only [frames, List.mem_flatMap]
  constructor
  · rintro ⟨half, -, row, hrow, ha⟩
    exact ⟨half, row, hrow, ha⟩
  · rintro ⟨half, row, hrow, ha⟩
    exact ⟨half, by cases half <;> decide, row, hrow, ha⟩

/-- Lists that stand one behind the other have nothing twice, if each has nothing twice and a field
of its elements tells them apart. -/
theorem nodup_flatMap_of_field {α β κ : Type} (key : α → κ) (field : β → κ) {part : α → List β}
    {elements : List α} (hkeys : (elements.map key).Nodup)
    (hfield : ∀ x ∈ elements, ∀ y ∈ part x, field y = key x)
    (hparts : ∀ x ∈ elements, (part x).Nodup) : (elements.flatMap part).Nodup := by
  refine List.nodup_flatMap.2 ⟨hparts, ?_⟩
  refine (List.pairwise_map.1 hkeys).imp_of_mem fun {x x'} hx hx' hne y hy hy' => hne ?_
  rw [← hfield x hx y hy, hfield x' hx' y hy']

/-- In the address fields of a family there is room for what a tree lists. -/
structure RegionGeometry.Room (f : Family) (g : RegionGeometry) : Prop where
  fits : ∀ half, ∀ row ∈ g.rows half, row.Fits f
  configurable : g.Configurable
  spartan6 : f = .spartan6 → g.bottom = []

section Room
variable {g : RegionGeometry} (hroom : g.Room f)
include hroom

section InColumn
variable {half : Half} {row : RowGeometry} (hrow : row ∈ g.rows half) {bus : BusGeometry}
  (hbus : bus ∈ row.buses) {column : ColumnGeometry} (hcolumn : column ∈ bus.columns)
include hrow hbus hcolumn

theorem RegionGeometry.Room.inColumn (minor : Nat) :
    (FrameAddress.pack f bus.blockType half row.row column.column minor).InColumn bus.blockType
      half row.row column.column := by
  obtain ⟨hrowFits, hcolumns⟩ := hroom.fits half row hrow
  have hblock := hroom.configurable half row hrow bus hbus
  have htop : f.addressLayout.half = none → half = .top := by
    intro hnone
    cases half with
    | top => rfl
    | bottom =>
      have hnil := hroom.spartan6 (Family.eq_spartan6_of_half_eq_none hnone)
      rw [RegionGeometry.rows, hnil] at hrow
      cases hrow
  exact (FrameAddress.names_of_configurable hblock htop).inColumn hrowFits
    (hcolumns bus hbus column hcolumn).1 minor

theorem RegionGeometry.Room.minor_pack {minor : Nat} (hminor : minor < column.frameCount) :
    (FrameAddress.pack f bus.blockType half row.row column.column minor).minor = minor :=
  have hcount := ((hroom.fits half row hrow).2 bus hbus column hcolumn).2
  FrameAddress.minor_pack_of_lt (Nat.lt_of_lt_of_le hminor hcount)

end InColumn

/-- **Nothing is listed twice** in a well-formed tree: each level sets a field of the address. -/
theorem RegionGeometry.Room.nodup_frames (hwell : g.WellFormed) : (g.frames f).Nodup := by
  refine nodup_flatMap_of_field id FrameAddress.half (by decide) ?_ ?_
  · intro half _ a ha
    obtain ⟨row, hrow, ha⟩ := List.mem_flatMap.1 ha
    obtain ⟨bus, hbus, column, hcolumn, minor, -, rfl⟩ := RowGeometry.mem_frames_iff.1 ha
    exact (hroom.inColumn hrow hbus hcolumn minor).half
  intro half _
  refine nodup_flatMap_of_field RowGeometry.row FrameAddress.row (hwell.nodup half) ?_ ?_
  · intro row hrow a ha
    obtain ⟨bus, hbus, column, hcolumn, minor, -, rfl⟩ := RowGeometry.mem_frames_iff.1 ha
    exact (hroom.inColumn hrow hbus hcolumn minor).row
  intro row hrow
  have hrowWell := hwell.rows half row hrow
  refine nodup_flatMap_of_field BusGeometry.blockType FrameAddress.blockType hrowWell.nodup ?_ ?_
  · intro bus hbus a ha
    obtain ⟨column, hcolumn, ha⟩ := List.mem_flatMap.1 ha
    obtain ⟨minor, -, rfl⟩ := List.mem_map.1 ha
    exact (hroom.inColumn hrow hbus hcolumn minor).blockType
  intro bus hbus
  refine nodup_flatMap_of_field ColumnGeometry.column FrameAddress.column
    (hrowWell.buses bus hbus).nodup ?_ ?_
  · intro column hcolumn a ha
    obtain ⟨minor, -, rfl⟩ := List.mem_map.1 ha
    exact (hroom.inColumn hrow hbus hcolumn minor).column
  intro column hcolumn
  refine List.Nodup.map_on ?_ List.nodup_range
  intro minor hminor minor' hminor' hpack
  rw [← hroom.minor_pack hrow hbus hcolumn (List.mem_range.1 hminor), hpack,
    hroom.minor_pack hrow hbus hcolumn (List.mem_range.1 hminor')]

/-- What a tree describes is what it lists. -/
theorem RegionGeometry.Room.describes_iff_mem_frames {t : PartGeometry}
    (hregions : t.regions = some g) (hranges : t.ranges = []) {a : FrameAddress f} :
    t.Describes a ↔ a ∈ g.frames f := by
  simp only [RegionGeometry.mem_frames_iff, RowGeometry.mem_frames_iff]
  constructor
  · rintro (⟨hother, hrow, hnumber, ⟨bus, hbus, hblock, column, hcolumn, hnumber', hminor⟩,
      hcanonical, -⟩ | ⟨hrange, -, -, -⟩)
    · obtain rfl := Option.some.inj (hregions.symm.trans hother)
      refine ⟨a.half, _, hrow, bus, hbus, column, hcolumn, a.minor, hminor, ?_⟩
      rw [hblock, hnumber, hnumber']
      exact (FrameAddress.eq_pack hcanonical).symm
    · rw [hranges] at hrange
      cases hrange
  · rintro ⟨half, row, hrow, bus, hbus, column, hcolumn, minor, hminor, rfl⟩
    have hin := hroom.inColumn hrow hbus hcolumn minor
    refine .listed hregions ?_ hin.row.symm ⟨bus, hbus, hin.blockType.symm, column, hcolumn,
      hin.column.symm, ?_⟩ hin.canonical ?_
    · rwa [hin.half]
    · rwa [hroom.minor_pack hrow hbus hcolumn hminor]
    · rw [hin.blockType]
      exact hroom.configurable half row hrow bus hbus

end Room

/-! ## Well-formed trees and their frames -/

namespace PartGeometry

/-- **A tree is accepted when it is well formed, and then its frames are enumerated.**  In every
other case an error is returned.  The walk over the part goes up through the frames of the listed
columns, each of them once, if the block types are configurable and the numbers fit. -/
theorem toPart_of_regions {g : PartGeometry} {regions : RegionGeometry}
    (hregions : g.regions = some regions) :
    ((∃ part : Part f, g.toPart f = .ok part) ↔
      g.family = f ∧ (∃ idcode, HexField.idcode.parse g.idcode = .ok idcode) ∧ g.ranges = [] ∧
        (f = .spartan6 → regions.bottom = []) ∧ regions.WellFormed) ∧
    ∀ part : Part f, g.toPart f = .ok part → g.Fits f → regions.Configurable →
      (∀ limit, part.walk limit = part.addresses.take limit) ∧
        (part.addresses.Pairwise fun a b => a.raw < b.raw) ∧
          part.addresses.Perm (regions.frames f) := by
  refine ⟨exists_toPart_iff_of_regions hregions, fun part h hfits hconfigurable => ?_⟩
  obtain ⟨⟨-, -, hranges, hspartan6, hwell⟩, -⟩ := (toPart_eq_ok_iff_of_regions hregions).1 h
  have hroom : regions.Room f := ⟨hfits regions hregions, hconfigurable, hspartan6⟩
  have henumerates := enumerates_of_toPart h hfits
  obtain ⟨-, -, hasc⟩ := henumerates.climbs.walks_addresses
  have hasc : part.addresses.Pairwise fun a b => a.raw < b.raw :=
    hasc.imp FrameAddress.compare_eq_lt.1
  have hnodup : part.addresses.Nodup := by
    refine hasc.imp fun {a b} hlt hsame => ?_
    rw [hsame] at hlt
    exact BitVec.lt_irrefl _ hlt
  refine ⟨henumerates.climbs.walk_eq_take, hasc, ?_⟩
  refine (List.perm_ext_iff_of_nodup hnodup (hroom.nodup_frames hwell)).2 fun a => ?_
  rw [henumerates.mem_addresses_iff, hroom.describes_iff_mem_frames hregions hranges]

/-- A tree whose rows, buses and columns are out of order. -/
def outOfOrder : PartGeometry where
  idcode := "+362D093"
  family := .series7
  regions := some
    { top := [⟨1, [⟨.blockRam, [⟨2, 1⟩]⟩, ⟨.clbIoClk, [⟨5, 1⟩, ⟨3, 2⟩]⟩]⟩,
        ⟨0, [⟨.clbIoClk, [⟨0, 1⟩]⟩]⟩]
      bottom := [⟨31, [⟨.cfgClb, [⟨1023, 128⟩]⟩]⟩] }

theorem toPart_of_regions_outOfOrder :
    ∃ (regions : RegionGeometry) (part : Part .series7), outOfOrder.regions = some regions ∧
      outOfOrder.toPart .series7 = .ok part ∧ outOfOrder.Fits .series7 ∧ regions.Configurable ∧
      regions.WellFormed ∧ part.walk 133 = part.addresses ∧ part.addresses.length = 133 ∧
      (⟨0x00020181⟩ : FrameAddress .series7) ∈ part.addresses := by
  have haccepted : (outOfOrder.toPart .series7).toOption.isSome := by decide +kernel
  obtain ⟨part, hpart⟩ := Option.isSome_iff_exists.1 haccepted
  have hpart := eq_ok_of_toOption hpart
  have hfits : outOfOrder.Fits .series7 := by
    rintro regions ⟨⟩ half
    cases half <;> (unfold RowGeometry.Fits; decide)
  have hconfigurable : (outOfOrder.regions.get rfl).Configurable := by
    intro half
    cases half <;> decide
  obtain ⟨hiff, hsound⟩ := toPart_of_regions (f := .series7) (g := outOfOrder) rfl
  obtain ⟨hwalk, -, hperm⟩ := hsound part hpart hfits hconfigurable
  have hlength : part.addresses.length = 133 := hperm.length_eq.trans (by decide +kernel)
  refine ⟨_, part, rfl, hpart, hfits, hconfigurable, (hiff.1 ⟨part, hpart⟩).2.2.2.2, ?_, hlength,
    hperm.mem_iff.2 (by decide +kernel)⟩
  rw [hwalk, ← hlength, List.take_length]

end PartGeometry
end FpgaBitstream
