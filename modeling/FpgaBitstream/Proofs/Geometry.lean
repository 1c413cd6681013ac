import FpgaBitstream.Geometry
import FpgaBitstream.Proofs.Walk

/-!
# The part that a geometry describes

A geometry is accepted when each of its levels can be built (`PartGeometry.toPart_cases`).  What is
built holds just the frames that are listed, as long as the numbers in the lists fit the address
fields of the family (`PartGeometry.Fits`): then the walk enumerates the addresses that the geometry
describes (`PartGeometry.enumerates_of_toPart`), and it starts somewhere unless there are none.

Numbers that do not fit are accepted as well, and are cut when an address is packed from them.
-/

namespace FpgaBitstream

variable {f : Family}

/-! ## The walk over ranges -/

theorem AddressRange.contains_iff {range : AddressRange} {raw : Word} :
    range.contains raw ↔ range.start ≤ raw ∧ raw < range.stop := by
  simp [contains]

namespace AddressRanges

variable {ranges : List AddressRange} (hasc : ranges.Pairwise fun a b => a.stop ≤ b.start)
include hasc

theorem isFirst_head :
    IsFirst (fun x : FrameAddress f => ∃ range ∈ ranges, range.contains x.raw)
      (ranges.head?.map fun range => ⟨range.start⟩) := by
  cases ranges with
  | nil =>
    refine IsFirst.of_empty ?_
    rintro x ⟨_, hmem, -⟩
    cases hmem
  | cons range rest =>
    have hstart : range.contains range.start :=
      AddressRange.contains_iff.2 ⟨BitVec.le_refl _, range.start_lt_stop⟩
    refine ⟨⟨range, List.mem_cons_self, hstart⟩, ?_⟩
    rintro x ⟨other, hmem, hx⟩
    have hx := (AddressRange.contains_iff.1 hx).1
    rcases List.mem_cons.1 hmem with rfl | hmem
    · exact hx
    · have hbehind := (List.pairwise_cons.1 hasc).1 other hmem
      exact BitVec.le_trans (BitVec.le_of_lt range.start_lt_stop) (BitVec.le_trans hbehind hx)

/-- **Ranges go on** with their lowest address behind an address. -/
theorem isFirst_nextIn? {a : FrameAddress f} (ha : ∃ range ∈ ranges, range.contains a.raw) :
    IsFirst (fun x => (∃ range ∈ ranges, range.contains x.raw) ∧ a.raw < x.raw)
      ((nextIn? a.raw ranges).map fun raw => (⟨raw⟩ : FrameAddress f)) := by
  induction ranges with
  | nil =>
    obtain ⟨_, hmem, -⟩ := ha
    cases hmem
  | cons range rest ih =>
    obtain ⟨hfirst, hrest⟩ := List.pairwise_cons.1 hasc
    unfold nextIn?
    split
    case isTrue hin =>
      obtain ⟨hstart, hstop⟩ := AddressRange.contains_iff.1 hin
      split
      case isTrue hnext =>
        have hlt : a.raw < a.raw + 1 := by bv_omega
        have hcontains : range.contains (a.raw + 1) :=
          AddressRange.contains_iff.2 ⟨BitVec.le_trans hstart (BitVec.le_of_lt hlt), hnext⟩
        refine ⟨⟨⟨range, List.mem_cons_self, hcontains⟩, hlt⟩, ?_⟩
        rintro x ⟨-, hgt⟩
        bv_omega
      case isFalse hlast =>
        -- the range ends behind the address, so what is left lies in the ranges behind
        rw [Option.map_map]
        refine (isFirst_head hrest).congr fun x => ⟨?_, ?_⟩
        · rintro ⟨other, hmem, hx⟩
          have hbehind := hfirst other hmem
          have hx' := (AddressRange.contains_iff.1 hx).1
          exact ⟨⟨other, List.mem_cons_of_mem _ hmem, hx⟩,
            Nat.lt_of_lt_of_le hstop (BitVec.le_trans hbehind hx')⟩
        · rintro ⟨⟨other, hmem, hx⟩, hgt⟩
          rcases List.mem_cons.1 hmem with rfl | hmem
          · have hx := (AddressRange.contains_iff.1 hx).2
            bv_omega
          · exact ⟨other, hmem, hx⟩
    case isFalse hout =>
      obtain ⟨own, hown, hain⟩ : ∃ own ∈ rest, own.contains a.raw := by
        obtain ⟨own, hmem, hain⟩ := ha
        rcases List.mem_cons.1 hmem with rfl | hmem
        · exact absurd hain hout
        · exact ⟨own, hmem, hain⟩
      refine (ih hrest ⟨own, hown, hain⟩).congr fun x => and_congr_left fun hgt => ⟨?_, ?_⟩
      · rintro ⟨other, hmem, hx⟩
        exact ⟨other, List.mem_cons_of_mem _ hmem, hx⟩
      · rintro ⟨other, hmem, hx⟩
        rcases List.mem_cons.1 hmem with rfl | hmem
        · have hbehind := hfirst own hown
          have hstart := (AddressRange.contains_iff.1 hain).1
          have hx := (AddressRange.contains_iff.1 hx).2
          bv_omega
        · exact ⟨other, hmem, hx⟩

end AddressRanges

/-- **The walk over ranges** enumerates the addresses in them. -/
theorem Part.enumerates_of_ranges {part : Part f} {ranges : AddressRanges}
    (hlayout : part.layout = .ranges ranges) : part.Enumerates fun a => part.contains a := by
  have hcontains (x : FrameAddress f) :
      (∃ range ∈ ranges.toList, range.contains x.raw) ↔ part.contains x := by
    simp [contains, hlayout, AddressRanges.contains]
  constructor
  · have hfirst := AddressRanges.isFirst_head (f := f) ranges.ascending
    simp only [first?, hlayout]
    exact hfirst.congr hcontains
  · intro a ha
    have hnext := AddressRanges.isFirst_nextIn? ranges.ascending ((hcontains a).2 ha)
    simp only [next?, hlayout]
    exact hnext.congr fun x => and_congr_left fun _ => hcontains x

/-! ## What a geometry lists -/

/-- The numbers of a row fit the address fields of a family. -/
def RowGeometry.Fits (f : Family) (g : RowGeometry) : Prop :=
  g.row < 2 ^ f.addressLayout.row.width ∧ ∀ bus ∈ g.buses, ∀ column ∈ bus.columns,
    column.column < 2 ^ f.addressLayout.column.width ∧
      column.frameCount ≤ 2 ^ f.addressLayout.minor.width

/-- The columns of a bus hold the minor frame of an address. -/
def BusGeometry.Lists (g : BusGeometry) (a : FrameAddress f) : Prop :=
  ∃ column ∈ g.columns, column.column = a.column ∧ a.minor < column.frameCount

/-- A bus of the block type of an address lists it. -/
def RowGeometry.Lists (g : RowGeometry) (a : FrameAddress f) : Prop :=
  ∃ bus ∈ g.buses, bus.blockType = a.blockType ∧ bus.Lists a

/-- The rows of a half. -/
def RegionGeometry.rows (g : RegionGeometry) : Half → List RowGeometry
  | .top => g.top
  | .bottom => g.bottom

namespace PartGeometry

/-- The numbers of a geometry fit the address fields of a family. -/
def Fits (f : Family) (g : PartGeometry) : Prop :=
  ∀ regions, g.regions = some regions → ∀ half, ∀ row ∈ regions.rows half, row.Fits f

/-- The addresses that a geometry describes: those of a configurable block type, without reserved
bits, that a row lists, and those in a range. -/
inductive Describes (g : PartGeometry) (a : FrameAddress f) : Prop where
  | listed {regions : RegionGeometry} {row : RowGeometry} (hregions : g.regions = some regions)
      (hrow : row ∈ regions.rows a.half) (hnumber : row.row = a.row) (hlists : row.Lists a)
      (hcanonical : a.Canonical) (hblock : a.blockType ∈ BlockType.configurable)
  | inRange {range : RangeGeometry} {start stop : Word} (hrange : range ∈ g.ranges)
      (hbounds : range.bounds = .ok (start, stop)) (hstart : start ≤ a.raw) (hstop : a.raw < stop)

end PartGeometry

/-! ## Maps built entry by entry -/

section Build
variable {κ α β ε : Type}

section SortedMap
variable [Ord κ] [Std.TransOrd κ] [Std.LawfulEqOrd κ] [DecidableEq κ]

theorem SortedMap.mem_toList_insertNew {m m' : SortedMap κ α} {key : κ} {value : α} {taken : ε}
    (h : m.insertNew key value taken = .ok m') (entry : κ × α) :
    entry ∈ m'.toList ↔ entry ∈ m.toList ∨ entry = (key, value) := by
  unfold insertNew at h
  split at h
  case isTrue => cases h
  case isFalse hnew =>
    obtain rfl := Except.ok.inj h
    obtain ⟨k, v⟩ := entry
    rw [mem_toList_iff, mem_toList_iff, get?_insert]
    by_cases hkey : k = key
    · subst hkey
      have hnone : m.get? k = none := by simpa [contains] using hnew
      simp [hnone, eq_comm]
    · simp [hkey]

/-- **A map built entry by entry** from a list holds what is built from each element, and each of
them can be built. -/
theorem SortedMap.mem_toList_foldlM (key : α → κ) (value : α → Except ε β) (taken : α → ε)
    {step : SortedMap κ β → α → Except ε (SortedMap κ β)}
    (hstep : ∀ m x, step m x = do m.insertNew (key x) (← value x) (taken x))
    {elements : List α} {built : SortedMap κ β} (h : elements.foldlM step .empty = .ok built) :
    (∀ x ∈ elements, ∃ v, value x = .ok v) ∧ ∀ entry, entry ∈ built.toList ↔
      ∃ x ∈ elements, entry.1 = key x ∧ value x = .ok entry.2 := by
  suffices hfrom : ∀ m, elements.foldlM step m = .ok built →
      (∀ x ∈ elements, ∃ v, value x = .ok v) ∧ ∀ entry, entry ∈ built.toList ↔
        entry ∈ m.toList ∨ ∃ x ∈ elements, entry.1 = key x ∧ value x = .ok entry.2 by
    obtain ⟨hall, hmem⟩ := hfrom .empty h
    exact ⟨hall, fun entry => (hmem entry).trans (or_iff_right List.not_mem_nil)⟩
  clear h
  induction elements with
  | nil =>
    intro m h
    obtain rfl := Except.ok.inj h
    simp
  | cons x rest ih =>
    intro m h
    obtain ⟨m₁, hx, hrest⟩ := bind_eq_ok.1 h
    rw [hstep] at hx
    obtain ⟨v, hv, hx⟩ := bind_eq_ok.1 hx
    obtain ⟨hall, hmem⟩ := ih m₁ hrest
    refine ⟨List.forall_mem_cons.2 ⟨⟨v, hv⟩, hall⟩, fun entry => ?_⟩
    have hentry : entry = (key x, v) ↔ entry.1 = key x ∧ value x = .ok entry.2 := by
      rw [Prod.ext_iff, hv, Except.ok.injEq, eq_comm (a := entry.2)]
    simp only [hmem, mem_toList_insertNew hx, hentry, or_assoc, List.mem_cons, exists_eq_or_imp]

end SortedMap

theorem listMapM_eq_ok_iff {change : α → Except ε β} {elements : List α} {changed : List β} :
    elements.mapM change = .ok changed ↔
      List.Forall₂ (fun x y => change x = .ok y) elements changed := by
  induction elements generalizing changed with
  | nil =>
    rw [List.mapM_nil, List.forall₂_nil_left_iff]
    exact ⟨fun h => (Except.ok.inj h).symm, fun h => h ▸ rfl⟩
  | cons x rest ih =>
    simp only [List.mapM_cons, bind_eq_ok, List.forall₂_cons_left_iff, ih]
    constructor
    · rintro ⟨first, hfirst, others, hothers, h⟩
      exact ⟨first, others, hfirst, hothers, (Except.ok.inj h).symm⟩
    · rintro ⟨first, others, hfirst, hothers, rfl⟩
      exact ⟨first, hfirst, others, hothers, rfl⟩

theorem mem_of_listMapM {change : α → Except ε β} {elements : List α} {changed : List β}
    (h : elements.mapM change = .ok changed) (y : β) :
    y ∈ changed ↔ ∃ x ∈ elements, change x = .ok y := by
  have hchanged := listMapM_eq_ok_iff.1 h
  clear h
  induction hchanged with
  | nil => simp
  | cons hfirst _ ih =>
    simp only [List.mem_cons, ih, exists_eq_or_imp, hfirst, Except.ok.injEq, eq_comm (a := y)]

theorem exists_listMapM_iff {change : α → Except ε β} {elements : List α} :
    (∃ changed, elements.mapM change = .ok changed) ↔ ∀ x ∈ elements, ∃ y, change x = .ok y := by
  simp only [listMapM_eq_ok_iff]
  induction elements with
  | nil => exact ⟨fun _ => nofun, fun _ => ⟨[], .nil⟩⟩
  | cons x rest ih =>
    rw [List.forall_mem_cons, ← ih]
    constructor
    · rintro ⟨changed, h⟩
      obtain ⟨y, others, hy, hothers, rfl⟩ := List.forall₂_cons_left_iff.1 h
      exact ⟨⟨y, hy⟩, others, hothers⟩
    · rintro ⟨⟨y, hy⟩, others, hothers⟩
      exact ⟨y :: others, .cons hy hothers⟩

/-- The first failure in a list is reported, in the order of the list. -/
theorem listMapM_eq_error_iff {change : α → Except ε β} {elements : List α} {e : ε} :
    elements.mapM change = .error e ↔ ∃ before x after, elements = before ++ x :: after ∧
      (∀ y ∈ before, ∃ z, change y = .ok z) ∧ change x = .error e := by
  induction elements with
  | nil =>
    rw [List.mapM_nil]
    refine ⟨nofun, ?_⟩
    rintro ⟨before, x, after, h, -⟩
    cases before <;> cases h
  | cons first rest ih =>
    rw [List.mapM_cons, bind_eq_error]
    constructor
    · rintro (h | ⟨z, hz, h⟩)
      · exact ⟨[], first, rest, rfl, nofun, h⟩
      · rcases bind_eq_error.1 h with h | ⟨_, _, h⟩
        · obtain ⟨before, x, after, rfl, hbefore, hx⟩ := ih.1 h
          exact ⟨first :: before, x, after, rfl, List.forall_mem_cons.2 ⟨⟨z, hz⟩, hbefore⟩, hx⟩
        · cases h
    · rintro ⟨before, x, after, h, hbefore, hx⟩
      cases before with
      | nil =>
        obtain ⟨rfl, -⟩ := List.cons.inj h
        exact .inl hx
      | cons y before =>
        obtain ⟨rfl, rfl⟩ := List.cons.inj h
        obtain ⟨⟨z, hz⟩, hbefore⟩ := List.forall_mem_cons.1 hbefore
        exact .inr ⟨z, hz, bind_eq_error.2 (.inl (ih.2 ⟨before, x, after, rfl, hbefore, hx⟩))⟩

/-- A computation behind a check succeeds when the check passes and the computation does. -/
theorem check_eq_ok {c : Prop} [Decidable c] {error : ε} {next : Except ε α} {a : α} :
    (if c then (do throw error; next) else next) = .ok a ↔ ¬ c ∧ next = .ok a := by
  by_cases h : c
  · rw [if_pos h]
    exact ⟨nofun, fun ⟨hnot, _⟩ => absurd h hnot⟩
  · rw [if_neg h, and_iff_right h]

theorem mapError_eq_ok {error : ε → β} {x : Except ε α} {a : α} :
    x.mapError error = .ok a ↔ x = .ok a := by
  cases x with
  | error e => exact ⟨nofun, nofun⟩
  | ok b => exact ⟨fun h => congrArg _ (Except.ok.inj h), fun h => congrArg _ (Except.ok.inj h)⟩

end Build

/-! ## What is built holds what is listed -/

/-- The column that is listed, unless it has no frames. -/
def BusGeometry.toColumn (g : BusGeometry) (number : Nat) (column : ColumnGeometry) :
    Except LayoutError Column :=
  if column.frameCount = 0 then .error (.noFrames number g.blockType column.column)
  else .ok ⟨column.frameCount⟩

theorem BusGeometry.toColumn_eq_ok_iff {g : BusGeometry} {number : Nat} {column : ColumnGeometry}
    {built : Column} :
    g.toColumn number column = .ok built ↔ 0 < column.frameCount ∧ built = ⟨column.frameCount⟩ := by
  unfold toColumn
  split
  case isTrue hzero => simp [hzero]
  case isFalse hne => simp [Nat.pos_of_ne_zero hne, eq_comm]

theorem BusGeometry.mem_columns_of_toBus {g : BusGeometry} {number : Nat} {bus : Bus}
    (h : g.toBus number = .ok bus) (entry : Nat × Column) :
    entry ∈ bus.columns.toList ↔
      ∃ column ∈ g.columns, entry.1 = column.column ∧
        0 < column.frameCount ∧ entry.2 = ⟨column.frameCount⟩ := by
  obtain ⟨columns, hcolumns, h⟩ := bind_eq_ok.1 h
  have hbus : columns = bus.columns := by
    split at h
    · cases h
    · exact congrArg Bus.columns (Except.ok.inj h)
  subst hbus
  have hbuilt := SortedMap.mem_toList_foldlM ColumnGeometry.column (g.toColumn number)
    (fun column => .columnTwice number g.blockType column.column) ?_ hcolumns
  · simp only [hbuilt.2, toColumn_eq_ok_iff]
  · intro m column
    unfold toColumn
    split <;> rfl

theorem RowGeometry.mem_buses_of_toRow {g : RowGeometry} {row : Row} (h : g.toRow = .ok row) :
    (∀ bus ∈ g.buses, ∃ built, bus.toBus g.row = .ok built) ∧ ∀ entry, entry ∈ row.buses.toList ↔
      ∃ bus ∈ g.buses, entry.1 = bus.blockType ∧ bus.toBus g.row = .ok entry.2 := by
  obtain ⟨buses, hbuses, h⟩ := bind_eq_ok.1 h
  have hrow : buses = row.buses := by
    split at h
    · cases h
    · exact congrArg Row.buses (Except.ok.inj h)
  subst hrow
  exact SortedMap.mem_toList_foldlM BusGeometry.blockType (·.toBus g.row)
    (fun bus => LayoutError.busTwice g.row bus.blockType) (fun _ _ => rfl) hbuses

theorem Region.mem_rows_of_ofGeometry {rows : List RowGeometry} {region : Region}
    (h : Region.ofGeometry rows = .ok region) :
    (∀ row ∈ rows, ∃ built, row.toRow = .ok built) ∧ ∀ entry, entry ∈ region.rows.toList ↔
      ∃ row ∈ rows, entry.1 = row.row ∧ row.toRow = .ok entry.2 := by
  obtain ⟨built, hbuilt, h⟩ := bind_eq_ok.1 h
  obtain rfl := Except.ok.inj h
  exact SortedMap.mem_toList_foldlM RowGeometry.row RowGeometry.toRow
    (fun row => LayoutError.rowTwice row.row) (fun _ _ => rfl) hbuilt

section Contains
variable {a : FrameAddress f}

theorem BusGeometry.contains_of_toBus {g : BusGeometry} {number : Nat} {bus : Bus}
    (h : g.toBus number = .ok bus) : bus.contains a ↔ g.Lists a := by
  simp only [Bus.contains_iff, mem_columns_of_toBus h]
  constructor
  · rintro ⟨built, ⟨column, hmem, hcolumn, -, rfl⟩, hminor⟩
    exact ⟨column, hmem, hcolumn.symm, hminor⟩
  · rintro ⟨column, hmem, hcolumn, hminor⟩
    exact ⟨⟨column.frameCount⟩,
      ⟨column, hmem, hcolumn.symm, Nat.zero_lt_of_lt hminor, rfl⟩, hminor⟩

theorem RowGeometry.contains_of_toRow {g : RowGeometry} {row : Row} (h : g.toRow = .ok row) :
    row.contains a ↔ g.Lists a := by
  obtain ⟨hall, hmem⟩ := mem_buses_of_toRow h
  simp only [Row.contains_iff, hmem]
  constructor
  · rintro ⟨built, ⟨bus, hbus, hblock, hbuilt⟩, hcontains⟩
    exact ⟨bus, hbus, hblock.symm, (BusGeometry.contains_of_toBus hbuilt).1 hcontains⟩
  · rintro ⟨bus, hbus, hblock, hlists⟩
    obtain ⟨built, hbuilt⟩ := hall bus hbus
    exact ⟨built, ⟨bus, hbus, hblock.symm, hbuilt⟩,
      (BusGeometry.contains_of_toBus hbuilt).2 hlists⟩

theorem Region.contains_of_ofGeometry {rows : List RowGeometry} {region : Region}
    (h : Region.ofGeometry rows = .ok region) :
    region.contains a ↔ ∃ row ∈ rows, row.row = a.row ∧ row.Lists a := by
  obtain ⟨hall, hmem⟩ := Region.mem_rows_of_ofGeometry h
  simp only [Region.contains_iff, hmem]
  constructor
  · rintro ⟨built, ⟨row, hrow, hnumber, hbuilt⟩, hcontains⟩
    exact ⟨row, hrow, hnumber.symm, (RowGeometry.contains_of_toRow hbuilt).1 hcontains⟩
  · rintro ⟨row, hrow, hnumber, hlists⟩
    obtain ⟨built, hbuilt⟩ := hall row hrow
    exact ⟨built, ⟨row, hrow, hnumber.symm, hbuilt⟩,
      (RowGeometry.contains_of_toRow hbuilt).2 hlists⟩

end Contains

/-- What is built from rows whose numbers fit has numbers that fit. -/
theorem Region.fits_of_ofGeometry {rows : List RowGeometry} {region : Region}
    (h : Region.ofGeometry rows = .ok region) (hfits : ∀ row ∈ rows, row.Fits f) :
    region.Fits f := by
  intro number row hrow
  obtain ⟨rowGeometry, hmem, rfl, hbuilt⟩ := ((Region.mem_rows_of_ofGeometry h).2 _).1 hrow
  obtain ⟨hnumber, hbuses⟩ := hfits rowGeometry hmem
  refine ⟨hnumber, fun blockType bus hbus number column hcolumn => ?_⟩
  obtain ⟨busGeometry, hbusmem, -, hbuiltBus⟩ :=
    ((RowGeometry.mem_buses_of_toRow hbuilt).2 _).1 hbus
  obtain ⟨columnGeometry, hcolumnmem, rfl, -, rfl⟩ :=
    (BusGeometry.mem_columns_of_toBus hbuiltBus _).1 hcolumn
  exact hbuses busGeometry hbusmem columnGeometry hcolumnmem

/-- A column without frames is not accepted. -/
theorem Region.populated_of_ofGeometry {rows : List RowGeometry} {region : Region}
    (h : Region.ofGeometry rows = .ok region) : region.Populated := by
  intro number row hrow blockType bus hbus number column hcolumn
  obtain ⟨rowGeometry, -, -, hbuilt⟩ := ((Region.mem_rows_of_ofGeometry h).2 _).1 hrow
  obtain ⟨busGeometry, -, -, hbuiltBus⟩ := ((RowGeometry.mem_buses_of_toRow hbuilt).2 _).1 hbus
  obtain ⟨columnGeometry, -, -, hpos, rfl⟩ :=
    (BusGeometry.mem_columns_of_toBus hbuiltBus _).1 hcolumn
  exact hpos

/-- **The ranges that are built** hold the addresses between the bounds. -/
theorem AddressRanges.contains_of_ofGeometry {ranges : List RangeGeometry}
    {built : AddressRanges} (h : AddressRanges.ofGeometry ranges = .ok built) (raw : Word) :
    built.contains raw ↔ ∃ range ∈ ranges, ∃ start stop, range.bounds = .ok (start, stop) ∧
      start ≤ raw ∧ raw < stop := by
  obtain ⟨bounds, hbounds, h⟩ := bind_eq_ok.1 h
  obtain ⟨hsorted, rfl⟩ : ∃ hsorted, built = .ofSorted (sortBounds bounds) hsorted := by
    simp only at h
    split at h
    · cases h
    · exact ⟨_, (Except.ok.inj h).symm⟩
  have hmem (pair : Word × Word) : pair ∈ sortBounds bounds ↔ ∃ range ∈ ranges,
      range.bounds = .ok pair := by
    rw [sortBounds, List.mem_mergeSort, mem_of_listMapM hbounds]
  simp only [contains, ofSorted, List.any_eq_true, List.mem_filterMap, AddressRange.contains_iff]
  constructor
  · rintro ⟨range, ⟨⟨start, stop⟩, hpair, hrange⟩, hstart, hstop⟩
    obtain ⟨rangeGeometry, hgeometry, hparsed⟩ := (hmem _).1 hpair
    obtain ⟨rfl, rfl⟩ := AddressRange.eq_of_ofBounds? hrange
    exact ⟨rangeGeometry, hgeometry, _, _, hparsed, hstart, hstop⟩
  · rintro ⟨rangeGeometry, hgeometry, start, stop, hparsed, hstart, hstop⟩
    have hlt : start < stop := Nat.lt_of_le_of_lt hstart hstop
    exact ⟨⟨start, stop, hlt⟩, ⟨(start, stop), (hmem _).2 ⟨rangeGeometry, hgeometry, hparsed⟩,
      dif_pos hlt⟩, hstart, hstop⟩

namespace PartGeometry
variable {g : PartGeometry} {part : Part f}

/-- What an accepted geometry is made of, and the part that is built from it. -/
theorem toPart_cases (h : g.toPart f = .ok part) :
    (∃ regions top bottom, g.regions = some regions ∧ g.ranges = [] ∧
      (f = .spartan6 → regions.bottom = []) ∧ Region.ofGeometry regions.top = .ok top ∧
      Region.ofGeometry regions.bottom = .ok bottom ∧ part.layout = .regions top bottom) ∨
    ∃ ranges, g.regions = none ∧ AddressRanges.ofGeometry g.ranges = .ok ranges ∧
      part.layout = .ranges ranges := by
  simp only [toPart, check_eq_ok, bind_eq_ok] at h
  obtain ⟨-, idcode, -, h⟩ := h
  split at h
  case h_1 => cases h
  case h_2 regions hregions hranges =>
    simp only [check_eq_ok, bind_eq_ok, mapError_eq_ok] at h
    obtain ⟨hbottomHalf, top, htop, bottom, hbottom, -, h⟩ := h
    obtain rfl := Except.ok.inj h
    refine .inl ⟨regions, top, bottom, hregions, hranges, fun hspartan6 => ?_, htop, hbottom, rfl⟩
    exact Decidable.byContradiction fun hne => hbottomHalf ⟨hspartan6, hne⟩
  case h_3 => cases h
  case h_4 hregions _ =>
    obtain ⟨ranges, hranges, h⟩ := bind_eq_ok.1 h
    obtain rfl := Except.ok.inj h
    exact .inr ⟨ranges, hregions, hranges, rfl⟩

/-- Without a half selector the bottom half of an accepted geometry has no rows. -/
theorem rows_bottom_eq_nil {rows : List RowGeometry} {bottom : Region}
    (hspartan6 : f = .spartan6 → rows = []) (hbottom : Region.ofGeometry rows = .ok bottom)
    (hhalf : f.addressLayout.half = none) : bottom.rows.toList = [] := by
  rw [hspartan6 (Family.eq_spartan6_of_half_eq_none hhalf)] at hbottom
  obtain rfl := Except.ok.inj hbottom
  rfl

/-! ## The walk over what a geometry describes -/

theorem fits_and_populated_of_toPart (h : g.toPart f = .ok part) (hfits : g.Fits f) :
    part.Fits ∧ part.Populated := by
  rcases toPart_cases h with ⟨regions, top, bottom, hregions, -, hnone, htop, hbottom, hlayout⟩ |
    ⟨ranges, -, -, hlayout⟩
  · simp only [Part.Fits, Part.Populated, hlayout]
    exact ⟨⟨Region.fits_of_ofGeometry htop (hfits regions hregions .top),
      Region.fits_of_ofGeometry hbottom (hfits regions hregions .bottom),
      rows_bottom_eq_nil hnone hbottom⟩,
      Region.populated_of_ofGeometry htop, Region.populated_of_ofGeometry hbottom⟩
  · simp only [Part.Fits, Part.Populated, hlayout, and_self]

/-- **The walk enumerates what a geometry describes.** -/
theorem enumerates_of_toPart (h : g.toPart f = .ok part) (hfits : g.Fits f) :
    part.Enumerates g.Describes := by
  obtain ⟨hpartFits, hpopulated⟩ := fits_and_populated_of_toPart h hfits
  rcases toPart_cases h with
    ⟨regions, top, bottom, hregions, hranges, -, htop, hbottom, hlayout⟩ |
    ⟨ranges, hregions, hranges, hlayout⟩
  · have hcontains (a : FrameAddress f) : part.contains a ↔
        ∃ row ∈ regions.rows a.half, row.row = a.row ∧ row.Lists a := by
      cases hhalf : a.half with
      | top =>
        rw [Part.contains_of_top hlayout hhalf]
        exact Region.contains_of_ofGeometry htop
      | bottom =>
        rw [Part.contains_of_bottom hlayout hhalf]
        exact Region.contains_of_ofGeometry hbottom
    have hframes : part.IsFrame = g.Describes := by
      refine funext fun a => propext ⟨?_, ?_⟩
      · rintro ⟨hcanonical, hblock, hin⟩
        obtain ⟨row, hrow, hnumber, hlists⟩ := (hcontains a).1 hin
        exact .listed hregions hrow hnumber hlists hcanonical hblock
      · rintro (⟨hother, hrow, hnumber, hlists, hcanonical, hblock⟩ | ⟨hrange, -, -, -⟩)
        · obtain rfl := Option.some.inj (hregions.symm.trans hother)
          exact ⟨hcanonical, hblock, (hcontains a).2 ⟨_, hrow, hnumber, hlists⟩⟩
        · rw [hranges] at hrange
          cases hrange
    rw [← hframes]
    exact Part.enumerates_of_regions hlayout hpartFits hpopulated
  · have hframes : (fun a : FrameAddress f => (part.contains a : Prop)) = g.Describes := by
      refine funext fun a => propext ?_
      simp only [Part.contains, hlayout, AddressRanges.contains_of_ofGeometry hranges]
      constructor
      · rintro ⟨range, hrange, start, stop, hbounds, hstart, hstop⟩
        exact .inRange hrange hbounds hstart hstop
      · rintro (⟨hother, -, -, -, -, -⟩ | ⟨hrange, hbounds, hstart, hstop⟩)
        · rw [hregions] at hother
          cases hother
        · exact ⟨_, hrange, _, _, hbounds, hstart, hstop⟩
    rw [← hframes]
    exact Part.enumerates_of_ranges hlayout

/-- **An accepted geometry whose numbers fit yields a sound topology.**  The walk over the part
climbs, so it comes to an end, and it goes through the addresses that the geometry describes.  There
is a first one if the geometry describes any. -/
theorem walk_of_toPart (h : g.toPart f = .ok part) (hfits : g.Fits f) :
    part.Climbs ∧ (∀ limit, part.walk limit = part.addresses.take limit) ∧
      (∀ a, a ∈ part.addresses ↔ g.Describes a) ∧
      (part.first?.isSome ↔ ∃ a : FrameAddress f, g.Describes a) := by
  have henumerates := enumerates_of_toPart h hfits
  refine ⟨henumerates.climbs, henumerates.climbs.walk_eq_take, henumerates.mem_addresses_iff, ?_⟩
  have hfirst := henumerates.first
  cases hpart : part.first? with
  | some a =>
    rw [hpart] at hfirst
    exact ⟨fun _ => ⟨a, hfirst.1⟩, fun _ => rfl⟩
  | none =>
    rw [hpart] at hfirst
    exact ⟨nofun, fun ⟨a, ha⟩ => absurd ha (hfirst a)⟩

/-- A row in each half of a device. -/
def bothHalves : PartGeometry where
  idcode := "0x0362d093"
  family := .series7
  regions := some
    { top := [⟨0, [⟨.clbIoClk, [⟨3, 2⟩]⟩]⟩]
      bottom := [⟨31, [⟨.blockRam, [⟨1023, 1⟩]⟩]⟩] }

theorem walk_of_toPart_bothHalves :
    ∃ part : Part .series7, bothHalves.toPart .series7 = .ok part ∧ bothHalves.Fits .series7 ∧
      part.walk 10 = part.addresses.take 10 ∧
      (⟨0x00000181⟩ : FrameAddress .series7) ∈ part.addresses ∧ part.first?.isSome := by
  have hfits : bothHalves.Fits .series7 := by
    rintro regions ⟨⟩ half row hrow
    cases half
    all_goals
      obtain rfl := List.mem_singleton.1 hrow
      unfold RowGeometry.Fits
      decide
  have hcanonical : (⟨0x00000181⟩ : FrameAddress .series7).Canonical := rfl
  have hdescribes : bothHalves.Describes (⟨0x00000181⟩ : FrameAddress .series7) := by
    refine .listed rfl List.mem_cons_self rfl ⟨_, List.mem_cons_self, ?_, _, List.mem_cons_self, ?_⟩
      hcanonical ?_
    all_goals decide
  have haccepted : (bothHalves.toPart .series7).toOption.isSome := by decide +kernel
  obtain ⟨part, hpart⟩ := Option.isSome_iff_exists.1 haccepted
  have hpart := eq_ok_of_toOption hpart
  obtain ⟨-, hwalk, hmem, hfirst⟩ := walk_of_toPart hpart hfits
  exact ⟨part, hpart, hfits, hwalk 10, (hmem _).2 hdescribes, hfirst.2 ⟨_, hdescribes⟩⟩

/-! ## Numbers that do not fit -/

/-- A range that ends where it begins. -/
def emptyRange : PartGeometry where
  idcode := "0x0362d093"
  family := .series7
  ranges := [⟨"0x10", "0x10"⟩]

/-- Two columns of which the second has a number that is cut to that of the first. -/
def wrappingColumns : PartGeometry where
  idcode := "0x0362d093"
  family := .series7
  regions := some { top := [⟨0, [⟨.clbIoClk, [⟨0, 1⟩, ⟨1024, 1⟩]⟩]⟩] }

/-- The part of the two columns. -/
def wrappingPart : Part .series7 where
  idcode := 0x0362d093
  layout := .regions
    ⟨.ofList [(0, ⟨.ofList [(.clbIoClk, ⟨.ofList [(0, ⟨1⟩), (1024, ⟨1⟩)]⟩)]⟩)]⟩ .empty

/-- **Not every accepted geometry yields a sound topology.**  A geometry that describes no address
is accepted if it has a range, and where the number of a column is cut the walk comes back to where
it was. -/
theorem not_forall_toPart_sound :
    ¬ (∀ (g : PartGeometry) (part : Part .series7), g.toPart .series7 = .ok part →
      part.first?.isSome) ∧
    ¬ ∀ (g : PartGeometry) (part : Part .series7), g.toPart .series7 = .ok part → part.Climbs := by
  constructor
  · intro h
    have hpart : emptyRange.toPart .series7 = .ok ⟨0x0362d093, .ranges ⟨[], .nil⟩⟩ :=
      eq_ok_of_toOption (by decide +kernel)
    cases h emptyRange _ hpart
  · intro h
    have hpart : wrappingColumns.toPart .series7 = .ok wrappingPart :=
      eq_ok_of_toOption (by decide +kernel)
    have hfirst : wrappingPart.first? = some ⟨0⟩ := by decide +kernel
    have hnext : wrappingPart.next? ⟨0⟩ = some ⟨0⟩ := by decide +kernel
    have hback := h wrappingColumns wrappingPart hpart ⟨0⟩ ⟨0⟩ (.first hfirst) hnext
    exact absurd hback (by decide)

end PartGeometry
end FpgaBitstream
