import FpgaBitstream.Part
import FpgaBitstream.Proofs.FrameAddress
import FpgaBitstream.Proofs.Grouping

/-!
# The walk over a part climbs

Each level of the topology moves on to a later field of the address: the column to the next minor
frame, the bus to the next column, the region to the next row, and the part to the other half or
the next block type.  So the address only ever grows, provided that the numbers of the topology fit
the fields they are packed into (`Part.Fits`).  Every part that is built from frame addresses or
from ranges is of that kind (`Part.Built.fits`), because its numbers were read out of such fields.

`Part.Walks` describes the walk without reference to the order of raw values.  For a part whose
walk climbs, `Part.addresses` is all of it (`Part.Climbs.walks_addresses`).
-/

namespace FpgaBitstream

variable {f : Family}

/-! ## Numbers that fit their fields -/

/-- The column numbers and minor frames of a bus fit their address fields. -/
def Bus.Fits (f : Family) (bus : Bus) : Prop :=
  ∀ number column, (number, column) ∈ bus.columns.toList →
    number < 2 ^ f.addressLayout.column.width ∧
      column.frameCount ≤ 2 ^ f.addressLayout.minor.width

/-- The buses of a row fit. -/
def Row.Fits (f : Family) (row : Row) : Prop :=
  ∀ blockType bus, (blockType, bus) ∈ row.buses.toList → bus.Fits f

/-- The row numbers of a region fit their address field, and so do its rows. -/
def Region.Fits (f : Family) (region : Region) : Prop :=
  ∀ number row, (number, row) ∈ region.rows.toList →
    number < 2 ^ f.addressLayout.row.width ∧ row.Fits f

/-- The numbers of a part fit the address fields of its family, and there is no bottom half where
no address can name one. -/
def Part.Fits (part : Part f) : Prop :=
  match part.layout with
  | .regions top bottom =>
    top.Fits f ∧ bottom.Fits f ∧ (f.addressLayout.half = none → bottom.rows.toList = [])
  | .ranges _ => True

/-! ## Each level moves on to a later field -/

theorem Bus.precedes_of_next? {bus : Bus} (hfits : bus.Fits f) {a b : FrameAddress f}
    (h : bus.next? a = some b) : b.Canonical ∧ a.Precedes b := by
  obtain ⟨column, hcolumn, h⟩ := Option.bind_eq_some_iff.1 h
  have hmem := SortedMap.mem_toList_iff.2 hcolumn
  split at h
  case h_1 next hnext =>
    -- the next minor frame of the same column
    obtain rfl := Option.some.inj h
    unfold Column.next? at hnext
    split at hnext
    case isFalse => cases hnext
    case isTrue hlt =>
      obtain rfl := Option.some.inj hnext
      have hminor := Nat.lt_of_lt_of_le hlt (hfits _ _ hmem).2
      refine ⟨FrameAddress.canonical_pack .., .minor ?_ ?_ ?_ ?_ ?_⟩
      · exact (a.blockType_pack_blockType ..).symm
      · exact (a.half_pack_half ..).symm
      · exact (FrameAddress.row_pack_of_lt a.row_lt).symm
      · exact (FrameAddress.column_pack_of_lt a.column_lt).symm
      · rw [FrameAddress.withMinor, FrameAddress.minor_pack_of_lt hminor]
        exact Nat.lt_succ_self _
  case h_2 =>
    -- the first frame of the next column
    obtain ⟨⟨number, column'⟩, hafter, h⟩ := Option.bind_eq_some_iff.1 h
    simp only at h
    split at h
    case isFalse => cases h
    case isTrue =>
      obtain rfl := Option.some.inj h
      have hnumber := (hfits _ _ (List.mem_of_find?_eq_some hafter)).1
      refine ⟨FrameAddress.canonical_pack .., .column ?_ ?_ ?_ ?_⟩
      · exact (a.blockType_pack_blockType ..).symm
      · exact (a.half_pack_half ..).symm
      · exact (FrameAddress.row_pack_of_lt a.row_lt).symm
      · have hlt := List.find?_some hafter
        rw [FrameAddress.column_pack_of_lt hnumber]
        exact Nat.compare_eq_lt.1 (by simpa using hlt)

theorem Row.precedes_of_next? {row : Row} (hfits : row.Fits f) {a b : FrameAddress f}
    (h : row.next? a = some b) : b.Canonical ∧ a.Precedes b := by
  obtain ⟨bus, hbus, h⟩ := Option.bind_eq_some_iff.1 h
  exact Bus.precedes_of_next? (hfits _ _ (SortedMap.mem_toList_iff.2 hbus)) h

/-- The first frame of a row is packed from the number of the row. -/
theorem Region.eq_pack_of_firstInRow? {region : Region} {blockType : BlockType} {half : Half}
    {number : Nat} {row : Row} {a : FrameAddress f}
    (h : region.firstInRow? blockType half number row = some a) :
    ∃ column, a = .pack f blockType half number column 0 := by
  obtain ⟨bus, -, h⟩ := Option.bind_eq_some_iff.1 h
  obtain ⟨column, -, h⟩ := Option.bind_eq_some_iff.1 h
  simp only at h
  split at h
  case isFalse => cases h
  case isTrue => exact ⟨column, (Option.some.inj h).symm⟩

theorem Region.precedes_of_next? {region : Region} (hfits : region.Fits f)
    {a b : FrameAddress f} (h : region.next? a = some b) : b.Canonical ∧ a.Precedes b := by
  obtain ⟨row, hrow, h⟩ := Option.bind_eq_some_iff.1 h
  split at h
  case h_1 next hnext =>
    obtain rfl := Option.some.inj h
    exact Row.precedes_of_next? (hfits _ _ (SortedMap.mem_toList_iff.2 hrow)).2 hnext
  case h_2 =>
    -- the first frame of a later row
    obtain ⟨⟨number, row'⟩, hafter, hfirst⟩ := List.exists_of_findSome?_eq_some h
    obtain ⟨hmem, hlt⟩ := List.mem_filter.1 hafter
    obtain ⟨column, rfl⟩ := Region.eq_pack_of_firstInRow? hfirst
    refine ⟨FrameAddress.canonical_pack .., .row ?_ ?_ ?_⟩
    · exact (a.blockType_pack_blockType ..).symm
    · exact (a.half_pack_half ..).symm
    · rw [FrameAddress.row_pack_of_lt (hfits _ _ hmem).1]
      exact Nat.compare_eq_lt.1 (by simpa using hlt)

theorem Region.eq_pack_of_first? {region : Region} {blockType : BlockType} {half : Half}
    {a : FrameAddress f} (h : region.first? blockType half = some a) :
    region.rows.toList ≠ [] ∧ ∃ row column, a = .pack f blockType half row column 0 := by
  obtain ⟨⟨number, row⟩, hmem, hfirst⟩ := List.exists_of_findSome?_eq_some h
  obtain ⟨column, rfl⟩ := Region.eq_pack_of_firstInRow? hfirst
  exact ⟨List.ne_nil_of_mem hmem, number, column, rfl⟩

namespace Part

/-- The first frame of a block type is packed from it. -/
theorem eq_pack_of_firstOfType? {top bottom : Region} {blockType : BlockType}
    {a : FrameAddress f} (h : firstOfType? top bottom blockType = some a) :
    ∃ half row column, a = .pack f blockType half row column 0 := by
  rcases Option.or_eq_some_iff.1 h with h | ⟨-, h⟩
  · obtain ⟨-, row, column, rfl⟩ := Region.eq_pack_of_first? h
    exact ⟨.top, row, column, rfl⟩
  · obtain ⟨-, row, column, rfl⟩ := Region.eq_pack_of_first? h
    exact ⟨.bottom, row, column, rfl⟩

/-- Behind a half comes the other half of the block type, or a later block type. -/
theorem precedes_of_nextHalf? {top bottom : Region}
    (hbottom : f.addressLayout.half = none → bottom.rows.toList = []) {a b : FrameAddress f}
    (h : nextHalf? top bottom a = some b) : b.Canonical ∧ a.Precedes b := by
  rcases Option.or_eq_some_iff.1 h with h | ⟨-, h⟩
  · split at h
    case isFalse => cases h
    case isTrue htop =>
      obtain ⟨hne, row, column, rfl⟩ := Region.eq_pack_of_first? h
      refine ⟨FrameAddress.canonical_pack .., .half ?_ ?_⟩
      · exact (a.blockType_pack_blockType ..).symm
      · rw [FrameAddress.half_pack _ _ _ _ _ _ fun hnone => absurd (hbottom hnone) hne, htop]
        decide
  · obtain ⟨candidate, hmem, hfirst⟩ := List.exists_of_findSome?_eq_some h
    obtain ⟨hcandidate, hlt⟩ := List.mem_filter.1 hmem
    obtain ⟨half, row, column, rfl⟩ := eq_pack_of_firstOfType? hfirst
    have hconfigurable : candidate ∈ BlockType.configurable :=
      List.mem_cons_of_mem _ hcandidate
    refine ⟨FrameAddress.canonical_pack .., .blockType ?_⟩
    rw [FrameAddress.blockType_pack_of_configurable hconfigurable]
    exact BlockType.code_lt_of_compare hconfigurable (by simpa using hlt)

/-! ## The walk -/

/-- The addresses that the walk of a part reaches. -/
inductive Visited (part : Part f) : FrameAddress f → Prop where
  | first {a : FrameAddress f} (h : part.first? = some a) : part.Visited a
  | next {a b : FrameAddress f} (ha : part.Visited a) (h : part.next? a = some b) :
    part.Visited b

/-- A part whose walk never goes back to an earlier raw value. -/
def Climbs (part : Part f) : Prop :=
  ∀ a b, part.Visited a → part.next? a = some b → a.raw < b.raw

/-- A list of addresses that ends where the part ends, each of them followed by the address to
which the configuration logic advances. -/
inductive Walks (part : Part f) : List (FrameAddress f) → Prop where
  | last {a : FrameAddress f} (h : part.next? a = none) : part.Walks [a]
  | cons {a b : FrameAddress f} {rest : List (FrameAddress f)} (h : part.next? a = some b)
      (hrest : part.Walks (b :: rest)) : part.Walks (a :: b :: rest)

section Regions
variable {part : Part f} {top bottom : Region} (hlayout : part.layout = .regions top bottom)
include hlayout

/-- Over a topology the walk starts at a packed address and stays with packed addresses. -/
theorem canonical_of_first? {a : FrameAddress f} (h : part.first? = some a) : a.Canonical := by
  simp only [first?, hlayout] at h
  obtain ⟨blockType, -, h⟩ := List.exists_of_findSome?_eq_some h
  obtain ⟨half, row, column, rfl⟩ := eq_pack_of_firstOfType? h
  exact FrameAddress.canonical_pack ..

theorem precedes_of_next? (hfits : part.Fits) {a b : FrameAddress f}
    (h : part.next? a = some b) : b.Canonical ∧ a.Precedes b := by
  simp only [Fits, hlayout] at hfits
  obtain ⟨htop, hbottom, hnone⟩ := hfits
  have hregion : ∀ region : Region, region.Fits f →
      (if region.contains a then (region.next? a).or (nextHalf? top bottom a) else none) = some b →
        b.Canonical ∧ a.Precedes b := by
    intro region hregion h
    split at h
    case isFalse => cases h
    case isTrue =>
      rcases Option.or_eq_some_iff.1 h with h | ⟨-, h⟩
      · exact Region.precedes_of_next? hregion h
      · exact precedes_of_nextHalf? hnone h
  simp only [next?, hlayout] at h
  cases hhalf : a.half with
  | top => exact hregion top htop (by simpa only [hhalf] using h)
  | bottom => exact hregion bottom hbottom (by simpa only [hhalf] using h)

theorem canonical_of_visited (hfits : part.Fits) {a : FrameAddress f} (ha : part.Visited a) :
    a.Canonical := by
  cases ha with
  | first h => exact canonical_of_first? hlayout h
  | next _ h => exact (precedes_of_next? hlayout hfits h).1

end Regions

/-- Within a list of ranges the next address is above the one before. -/
theorem lt_of_nextIn? {ranges : List AddressRange}
    (hasc : ranges.Pairwise fun a b => a.stop ≤ b.start) {raw next : Word}
    (h : AddressRanges.nextIn? raw ranges = some next) : raw < next := by
  induction ranges with
  | nil => cases h
  | cons range rest ih =>
    obtain ⟨hfirst, hrest⟩ := List.pairwise_cons.1 hasc
    unfold AddressRanges.nextIn? at h
    split at h
    case isFalse => exact ih hrest h
    case isTrue hin =>
      have hstop : raw < range.stop := by
        simp only [AddressRange.contains, Bool.and_eq_true, decide_eq_true_eq] at hin
        exact hin.2
      split at h
      case isTrue =>
        obtain rfl := Option.some.inj h
        bv_omega
      case isFalse =>
        obtain ⟨range', hhead, rfl⟩ := Option.map_eq_some_iff.1 h
        have hstart := hfirst range' (List.mem_of_head? hhead)
        bv_omega

/-- **A part whose numbers fit is walked upwards.** -/
theorem Fits.climbs {part : Part f} (hfits : part.Fits) : part.Climbs := by
  intro a b ha h
  cases hlayout : part.layout with
  | regions top bottom =>
    obtain ⟨hb, hprecedes⟩ := precedes_of_next? hlayout hfits h
    exact FrameAddress.raw_lt_of_precedes (canonical_of_visited hlayout hfits ha) hb hprecedes
  | ranges ranges =>
    simp only [next?, hlayout] at h
    obtain ⟨raw, hraw, rfl⟩ := Option.map_eq_some_iff.1 h
    exact lt_of_nextIn? ranges.ascending hraw

/-! ## The list of addresses is the whole walk -/

section Climbs
variable {part : Part f} (hclimbs : part.Climbs)
include hclimbs

/-- From a visited address on, the addresses that climb are all that follow. -/
theorem climbOnto_eq (done : List (FrameAddress f)) {a : FrameAddress f} (ha : part.Visited a) :
    ∃ rest, part.climbOnto done a = done.reverse ++ a :: rest ∧ part.Walks (a :: rest) ∧
      (a :: rest).Pairwise fun a b => compare a b = .lt := by
  fun_induction climbOnto part done a with
  | case1 done a next hnext hlt ih =>
    obtain ⟨rest, heq, hwalks, hasc⟩ := ih (ha.next hnext)
    refine ⟨next :: rest, ?_, .cons hnext hwalks, .cons ?_ hasc⟩
    · rw [heq, List.reverse_cons, List.append_assoc, List.singleton_append]
    · intro b hb
      have hnextlt : compare a next = .lt := FrameAddress.compare_eq_lt.2 hlt
      rcases List.mem_cons.1 hb with rfl | hb
      · exact hnextlt
      · exact Std.TransCmp.lt_trans hnextlt ((List.pairwise_cons.1 hasc).1 b hb)
  | case2 done a next hnext hlt => exact absurd (hclimbs a next ha hnext) hlt
  | case3 done a hnext =>
    exact ⟨[], List.reverse_cons, .last hnext, List.pairwise_singleton _ _⟩

/-- **The addresses of a climbing part are its walk**, in ascending order. -/
theorem Climbs.walks_addresses :
    part.first? = part.addresses.head? ∧ (part.addresses ≠ [] → part.Walks part.addresses) ∧
      part.addresses.Pairwise fun a b => compare a b = .lt := by
  unfold addresses
  cases hfirst : part.first? with
  | none => exact ⟨rfl, fun hne => absurd rfl hne, .nil⟩
  | some a =>
    obtain ⟨rest, heq, hwalks, hasc⟩ := climbOnto_eq hclimbs [] (.first hfirst)
    simp only [heq]
    exact ⟨rfl, fun _ => hwalks, hasc⟩

/-- No address comes twice. -/
theorem Climbs.nodup_addresses : part.addresses.Nodup := by
  obtain ⟨-, -, hasc⟩ := hclimbs.walks_addresses
  refine hasc.imp fun {a b} hlt heq => ?_
  have hself : compare b b = .eq := Std.ReflCmp.compare_self
  rw [heq, hself] at hlt
  cases hlt

end Climbs

theorem walkFrom_eq_take {part : Part f} {a : FrameAddress f} {rest : List (FrameAddress f)}
    (h : part.Walks (a :: rest)) (limit : Nat) :
    part.walkFrom limit (some a) = (a :: rest).take limit := by
  induction limit generalizing a rest with
  | zero => rfl
  | succ limit ih =>
    rw [walkFrom, List.take_succ_cons]
    cases h with
    | last h =>
      rw [h, List.take_nil]
      cases limit <;> rfl
    | cons h hrest => rw [h, ih hrest]

/-- The walk goes through the addresses and ends with them. -/
theorem Climbs.walk_eq_take {part : Part f} (hclimbs : part.Climbs) (limit : Nat) :
    part.walk limit = part.addresses.take limit := by
  obtain ⟨hfirst, hwalks, -⟩ := hclimbs.walks_addresses
  rw [walk, hfirst]
  cases haddresses : part.addresses with
  | nil =>
    rw [List.take_nil]
    cases limit <;> rfl
  | cons a rest =>
    rw [haddresses] at hwalks
    exact walkFrom_eq_take (hwalks (List.cons_ne_nil _ _)) limit

end Part

/-! ## Parts built from addresses or ranges -/

theorem le_foldl_max_iff {α : Type} {value : α → Nat} {bound : Nat} {elements : List α}
    {start : Nat} :
    bound ≤ elements.foldl (fun top x => max top (value x)) start ↔
      bound ≤ start ∨ ∃ x ∈ elements, bound ≤ value x := by
  induction elements generalizing start with
  | nil => simp
  | cons x rest ih =>
    have hmax : bound ≤ max start (value x) ↔ bound ≤ start ∨ bound ≤ value x := by omega
    rw [List.foldl_cons, ih, hmax, or_assoc]
    simp

/-! A level is built when its addresses agree and each of their groups builds the level below. -/

theorem Column.ofAddresses_eq_ok {addresses : List (FrameAddress f)} {column : Column} :
    Column.ofAddresses addresses = .ok column ↔
      addresses ≠ [] ∧ allAgree (·.withMinor 0) addresses ∧
        column.frameCount = addresses.foldl (fun top a => max top a.minor) 0 + 1 := by
  obtain ⟨frameCount⟩ := column
  unfold ofAddresses
  split
  case isTrue hempty => simp [List.isEmpty_iff.1 hempty]
  case isFalse hne =>
    rw [List.isEmpty_iff] at hne
    split
    case isTrue hagree => simp [hne, hagree, eq_comm]
    case isFalse hdiffer => simp [hdiffer]

theorem Bus.ofAddresses_eq_ok {addresses : List (FrameAddress f)} {bus : Bus} :
    Bus.ofAddresses addresses = .ok bus ↔
      allAgree (fun a => (a.blockType, a.half, a.row)) addresses ∧
        (groupByKey (·.column) addresses).mapM (fun _ group => Column.ofAddresses group) =
          .ok bus.columns := by
  unfold ofAddresses
  split
  case isTrue hagree =>
    rw [bind_eq_ok, and_iff_right hagree]
    constructor
    · rintro ⟨columns, hcolumns, h⟩
      exact Except.ok.inj h ▸ hcolumns
    · exact fun hcolumns => ⟨_, hcolumns, rfl⟩
  case isFalse hdiffer => simp [hdiffer]

theorem Row.ofAddresses_eq_ok {addresses : List (FrameAddress f)} {row : Row} :
    Row.ofAddresses addresses = .ok row ↔
      allAgree (fun a => (a.half, a.row)) addresses ∧
        (groupByKey (·.blockType) addresses).mapM (fun _ group => Bus.ofAddresses group) =
          .ok row.buses := by
  unfold ofAddresses
  split
  case isTrue hagree =>
    rw [bind_eq_ok, and_iff_right hagree]
    constructor
    · rintro ⟨buses, hbuses, h⟩
      exact Except.ok.inj h ▸ hbuses
    · exact fun hbuses => ⟨_, hbuses, rfl⟩
  case isFalse hdiffer => simp [hdiffer]

theorem Region.ofAddresses_eq_ok {addresses : List (FrameAddress f)} {region : Region} :
    Region.ofAddresses addresses = .ok region ↔
      allAgree (·.half) addresses ∧
        (groupByKey (·.row) addresses).mapM (fun _ group => Row.ofAddresses group) =
          .ok region.rows := by
  unfold ofAddresses
  split
  case isTrue hagree =>
    rw [bind_eq_ok, and_iff_right hagree]
    constructor
    · rintro ⟨rows, hrows, h⟩
      exact Except.ok.inj h ▸ hrows
    · exact fun hrows => ⟨_, hrows, rfl⟩
  case isFalse hdiffer => simp [hdiffer]

theorem Column.frameCount_le_of_ofAddresses {addresses : List (FrameAddress f)} {column : Column}
    (h : Column.ofAddresses addresses = .ok column) :
    column.frameCount ≤ 2 ^ f.addressLayout.minor.width := by
  rw [(Column.ofAddresses_eq_ok.1 h).2.2]
  refine Nat.succ_le_of_lt (Nat.lt_of_not_le fun hle => ?_)
  rcases le_foldl_max_iff.1 hle with hstart | ⟨a, -, hminor⟩
  · exact absurd hstart (Nat.not_le.2 (Nat.two_pow_pos _))
  · exact absurd hminor (Nat.not_le.2 a.minor_lt)

theorem Bus.fits_of_ofAddresses {addresses : List (FrameAddress f)} {bus : Bus}
    (h : Bus.ofAddresses addresses = .ok bus) : bus.Fits f := by
  intro number column hmem
  obtain ⟨group, hgroup, hcolumn⟩ := SortedMap.mem_of_mapM (Bus.ofAddresses_eq_ok.1 h).2 hmem
  obtain ⟨a, -, rfl⟩ := exists_of_mem_groupByKey hgroup
  exact ⟨a.column_lt, Column.frameCount_le_of_ofAddresses hcolumn⟩

theorem Row.fits_of_ofAddresses {addresses : List (FrameAddress f)} {row : Row}
    (h : Row.ofAddresses addresses = .ok row) : row.Fits f := by
  intro blockType bus hmem
  obtain ⟨group, -, hbus⟩ := SortedMap.mem_of_mapM (Row.ofAddresses_eq_ok.1 h).2 hmem
  exact Bus.fits_of_ofAddresses hbus

theorem Region.fits_of_ofAddresses {addresses : List (FrameAddress f)} {region : Region}
    (h : Region.ofAddresses addresses = .ok region) : region.Fits f := by
  intro number row hmem
  obtain ⟨group, hgroup, hrow⟩ := SortedMap.mem_of_mapM (Region.ofAddresses_eq_ok.1 h).2 hmem
  obtain ⟨a, -, rfl⟩ := exists_of_mem_groupByKey hgroup
  exact ⟨a.row_lt, Row.fits_of_ofAddresses hrow⟩

namespace Part

/-- A part built from the addresses of its frames, or from address ranges. -/
inductive Built (part : Part f) : Prop where
  | ofAddresses (idcode : Word) (addresses : List (FrameAddress f))
      (h : Part.ofAddresses idcode addresses = .ok part)
  | ofRanges (idcode : Word) (bounds : List (Word × Word))
      (h : Part.ofRanges idcode bounds = .ok part)

/-- A part is built half by half. -/
theorem ofAddresses_eq_ok {part : Part f} {idcode : Word} {addresses : List (FrameAddress f)} :
    Part.ofAddresses idcode addresses = .ok part ↔ ∃ top bottom : Region,
      Region.ofAddresses (addresses.filter fun a => a.half = .top) = .ok top ∧
        Region.ofAddresses (addresses.filter fun a => a.half = .bottom) = .ok bottom ∧
        part = ⟨idcode, .regions top bottom⟩ := by
  simp only [ofAddresses, bind_eq_ok]
  constructor
  · rintro ⟨top, htop, bottom, hbottom, h⟩
    exact ⟨top, bottom, htop, hbottom, (Except.ok.inj h).symm⟩
  · rintro ⟨top, bottom, htop, hbottom, rfl⟩
    exact ⟨top, htop, bottom, hbottom, rfl⟩

theorem fits_of_ofAddresses {part : Part f} {idcode : Word} {addresses : List (FrameAddress f)}
    (h : Part.ofAddresses idcode addresses = .ok part) : part.Fits := by
  obtain ⟨top, bottom, htop, hbottom, rfl⟩ := ofAddresses_eq_ok.1 h
  refine ⟨Region.fits_of_ofAddresses htop, Region.fits_of_ofAddresses hbottom, fun hnone => ?_⟩
  have hempty : addresses.filter (fun a => a.half = .bottom) = [] :=
    List.filter_eq_nil_iff.2 fun a _ => by simp [FrameAddress.half_eq_top hnone a]
  rw [hempty] at hbottom
  obtain rfl := Except.ok.inj hbottom
  rfl

/-- **The numbers of a built part fit their fields.** -/
theorem Built.fits {part : Part f} (h : part.Built) : part.Fits := by
  cases h with
  | ofAddresses idcode addresses h => exact fits_of_ofAddresses h
  | ofRanges idcode bounds h =>
    obtain ⟨ranges, -, h⟩ := bind_eq_ok.1 h
    obtain rfl := Except.ok.inj h
    exact trivial

end Part
end FpgaBitstream
