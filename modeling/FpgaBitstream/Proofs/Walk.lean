import FpgaBitstream.Proofs.Topology

/-!
# The walk visits every frame

`Part.next?` is put together from the levels of the topology, and each level adds one way to go on
when the level below has run out: the next column, a later row, the other half, a later block type.
`IsFirst` says of an optional address that it is the lowest of a set, or that the set is empty.  The
sets of two levels are one behind the other, so the lowest of both is found by trying the first and
then the second (`IsFirst.or`), and by induction the lowest of a run of sets (`IsFirst.findSome?`).

From this each level is shown to give the lowest of its frames behind an address, up to the part
(`Part.isFirst_next?`).  As nothing lies between an address of the walk and the next, the walk goes
through all frames of the part and through nothing else (`Part.Enumerates.mem_addresses_iff`).  The
numbers of the topology have to fit their fields for that, and no column may be empty
(`Part.Populated`).
-/

namespace FpgaBitstream

variable {f : Family}

/-! ## Columns that are not empty -/

/-- Every column of a bus has a frame. -/
def Bus.Populated (bus : Bus) : Prop :=
  ∀ number column, (number, column) ∈ bus.columns.toList → 0 < column.frameCount

/-- Every column of a row has a frame. -/
def Row.Populated (row : Row) : Prop :=
  ∀ blockType bus, (blockType, bus) ∈ row.buses.toList → bus.Populated

/-- Every column of a region has a frame. -/
def Region.Populated (region : Region) : Prop :=
  ∀ number row, (number, row) ∈ region.rows.toList → row.Populated

/-! ## Frames of a level -/

theorem Bus.contains_iff {bus : Bus} {a : FrameAddress f} :
    bus.contains a ↔
      ∃ column, (a.column, column) ∈ bus.columns.toList ∧ a.minor < column.frameCount := by
  simp [contains, Column.contains, Option.any_eq_true, SortedMap.mem_toList_iff]

theorem Row.contains_iff {row : Row} {a : FrameAddress f} :
    row.contains a ↔ ∃ bus, (a.blockType, bus) ∈ row.buses.toList ∧ bus.contains a := by
  simp [contains, bus?, Option.any_eq_true, SortedMap.mem_toList_iff]

theorem Region.contains_iff {region : Region} {a : FrameAddress f} :
    region.contains a ↔ ∃ row, (a.row, row) ∈ region.rows.toList ∧ row.contains a := by
  simp [contains, Option.any_eq_true, SortedMap.mem_toList_iff]

namespace FrameAddress

/-- An address of a block type, without reserved bits. -/
structure OfType (b : BlockType) (a : FrameAddress f) : Prop where
  canonical : a.Canonical
  blockType : a.blockType = b

/-- An address in a half of a block type. -/
structure InHalf (b : BlockType) (h : Half) (a : FrameAddress f) : Prop extends a.OfType b where
  half : a.half = h

/-- An address in a row. -/
structure InRow (b : BlockType) (h : Half) (row : Nat) (a : FrameAddress f) : Prop
    extends a.InHalf b h where
  row : a.row = row

/-- An address in a column. -/
structure InColumn (b : BlockType) (h : Half) (row column : Nat) (a : FrameAddress f) : Prop
    extends a.InRow b h row where
  column : a.column = column

/-- Packing keeps a block type and a half. -/
structure Names (f : Family) (b : BlockType) (h : Half) : Prop where
  blockType (half : Half) (row column minor : Nat) : (pack f b half row column minor).blockType = b
  half (blockType : BlockType) (row column minor : Nat) :
    (pack f blockType h row column minor).half = h

theorem names (a : FrameAddress f) : Names f a.blockType a.half :=
  ⟨a.blockType_pack_blockType, a.half_pack_half⟩

theorem names_of_configurable {b : BlockType} (hb : b ∈ BlockType.configurable) {h : Half}
    (hh : f.addressLayout.half = none → h = .top) : Names f b h :=
  ⟨blockType_pack_of_configurable hb, fun _ _ _ _ => half_pack _ _ _ _ _ _ hh⟩

section Order
variable {a x : FrameAddress f} {b b' : BlockType} {h : Half} {row row' column : Nat}

theorem Names.inColumn (hnames : Names f b h) (hrow : row < 2 ^ f.addressLayout.row.width)
    (hcolumn : column < 2 ^ f.addressLayout.column.width) (minor : Nat) :
    (pack f b h row column minor).InColumn b h row column where
  canonical := canonical_pack ..
  blockType := hnames.blockType ..
  half := hnames.half ..
  row := row_pack_of_lt hrow
  column := column_pack_of_lt hcolumn

/-! The sets of addresses at one level lie one behind the other. -/

theorem OfType.raw_lt (ha : a.OfType b) (hx : x.OfType b') (hlt : b.code < b'.code) :
    a.raw < x.raw := by
  refine raw_lt_of_precedes ha.canonical hx.canonical (.blockType ?_)
  rwa [ha.blockType, hx.blockType]

theorem InHalf.raw_lt (ha : a.InHalf b .top) (hx : x.InHalf b .bottom) : a.raw < x.raw := by
  refine raw_lt_of_precedes ha.canonical hx.canonical (.half ?_ ?_)
  · rw [ha.blockType, hx.blockType]
  · rw [ha.half, hx.half]
    decide

theorem InRow.raw_lt (ha : a.InRow b h row) (hx : x.InRow b h row') (hlt : row < row') :
    a.raw < x.raw := by
  refine raw_lt_of_precedes ha.canonical hx.canonical (.row ?_ ?_ ?_)
  · rw [ha.blockType, hx.blockType]
  · rw [ha.half, hx.half]
  · rwa [ha.row, hx.row]

theorem InRow.raw_lt_of_column (ha : a.InRow b h row) (hx : x.InRow b h row)
    (hlt : a.column < x.column) : a.raw < x.raw := by
  refine raw_lt_of_precedes ha.canonical hx.canonical (.column ?_ ?_ ?_ hlt)
  · rw [ha.blockType, hx.blockType]
  · rw [ha.half, hx.half]
  · rw [ha.row, hx.row]

theorem InColumn.raw_lt (ha : a.InColumn b h row column) (hx : x.InColumn b h row column)
    (hlt : a.minor < x.minor) : a.raw < x.raw := by
  refine raw_lt_of_precedes ha.canonical hx.canonical (.minor ?_ ?_ ?_ ?_ hlt)
  · rw [ha.blockType, hx.blockType]
  · rw [ha.half, hx.half]
  · rw [ha.row, hx.row]
  · rw [ha.column, hx.column]

/-- Behind an address of a row are the later frames of its column and those of later columns. -/
theorem InRow.minor_or_column (ha : a.InRow b h row) (hx : x.InRow b h row)
    (hlt : a.raw < x.raw) :
    x.column = a.column ∧ a.minor < x.minor ∨ a.column < x.column := by
  cases precedes_of_raw_lt ha.canonical hx.canonical hlt with
  | blockType hb => simp [ha.blockType, hx.blockType] at hb
  | half _ hh => simp [ha.half, hx.half] at hh
  | row _ _ hr => simp [ha.row, hx.row] at hr
  | column _ _ _ hc => exact .inr hc
  | minor _ _ _ hc hm => exact .inl ⟨hc.symm, hm⟩

/-- Behind an address of a half are the later frames of its row and those of later rows. -/
theorem InHalf.row_le (ha : a.InHalf b h) (hx : x.InHalf b h) (hlt : a.raw < x.raw) :
    a.row ≤ x.row := by
  cases precedes_of_raw_lt ha.canonical hx.canonical hlt with
  | blockType hb => simp [ha.blockType, hx.blockType] at hb
  | half _ hh => simp [ha.half, hx.half] at hh
  | row _ _ hr => exact Nat.le_of_lt hr
  | column _ _ hr _ | minor _ _ hr _ _ => exact Nat.le_of_eq hr

/-- The first frame of a column comes before the other frames of it and of later columns. -/
theorem InColumn.raw_le (ha : a.InColumn b h row column) (hminor : a.minor = 0)
    (hx : x.InRow b h row) (hle : column ≤ x.column) : a.raw ≤ x.raw := by
  rcases Nat.lt_or_eq_of_le hle with hlt | heq
  · exact BitVec.le_of_lt (ha.raw_lt_of_column hx (ha.column ▸ hlt))
  · have hx : x.InColumn b h row column := ⟨hx, heq.symm⟩
    rcases Nat.eq_zero_or_pos x.minor with hzero | hpos
    · have hblock : a.blockType = x.blockType := ha.blockType.trans hx.blockType.symm
      have hhalf : a.half = x.half := ha.half.trans hx.half.symm
      have hrow : a.row = x.row := ha.row.trans hx.row.symm
      have hcolumn : a.column = x.column := ha.column.trans hx.column.symm
      have heq : a = x := eq_of_fields ha.canonical hx.canonical hblock hhalf hrow hcolumn
        (hminor.trans hzero.symm)
      rw [heq]
      exact BitVec.le_refl _
    · exact BitVec.le_of_lt (ha.raw_lt hx (hminor ▸ hpos))

end Order
end FrameAddress

/-! ## The lowest address of a set -/

/-- An address is the lowest of a set, or the set is empty and there is none. -/
def IsFirst (S : FrameAddress f → Prop) : Option (FrameAddress f) → Prop
  | some a => S a ∧ ∀ x, S x → a.raw ≤ x.raw
  | none => ∀ x, ¬ S x

namespace IsFirst

variable {S T : FrameAddress f → Prop} {m n : Option (FrameAddress f)}

theorem congr (h : IsFirst S m) (hiff : ∀ x, S x ↔ T x) : IsFirst T m := by
  have heq : S = T := funext fun x => propext (hiff x)
  rwa [← heq]

theorem of_empty (h : ∀ x, ¬ S x) : IsFirst S none := h

/-- **The lowest of two sets**, one behind the other, is that of the first set that has one. -/
theorem or (hS : IsFirst S m) (hT : IsFirst T n)
    (hlt : ∀ x y, S x → T y → x.raw < y.raw) : IsFirst (fun x => S x ∨ T x) (m.or n) := by
  cases m with
  | some a =>
    obtain ⟨ha, hleast⟩ := hS
    refine ⟨.inl ha, fun x hx => ?_⟩
    rcases hx with hx | hx
    · exact hleast x hx
    · exact BitVec.le_of_lt (hlt a x ha hx)
  | none => exact hT.congr fun x => ⟨.inr, fun hx => hx.resolve_left (hS x)⟩

/-- **The lowest of a run of sets**, each behind the ones before it. -/
theorem findSome? {κ : Type} {S : κ → FrameAddress f → Prop} {g : κ → Option (FrameAddress f)}
    {entries : List κ} (h : ∀ entry ∈ entries, IsFirst (S entry) (g entry))
    (hlt : entries.Pairwise fun d e => ∀ x y, S d x → S e y → x.raw < y.raw) :
    IsFirst (fun x => ∃ entry ∈ entries, S entry x) (entries.findSome? g) := by
  induction entries with
  | nil => exact of_empty fun x hx => by simp at hx
  | cons entry rest ih =>
    obtain ⟨hfirst, hrest⟩ := List.pairwise_cons.1 hlt
    have hentry := h entry List.mem_cons_self
    have htail := ih (fun other hmem => h other (List.mem_cons_of_mem _ hmem)) hrest
    have hor : (entry :: rest).findSome? g = (g entry).or (rest.findSome? g) := by
      rw [List.findSome?_cons]
      cases g entry <;> rfl
    rw [hor]
    refine (hentry.or htail ?_).congr fun x => by simp
    rintro x y hx ⟨other, hmem, hy⟩
    exact hfirst other hmem x y hx hy

end IsFirst

open FrameAddress

/-! ## Columns and buses -/

section Bus
variable {a : FrameAddress f} {b : BlockType} {h : Half} {row : Nat}

theorem Column.isFirst_next? {column : Column}
    (hfits : column.frameCount ≤ 2 ^ f.addressLayout.minor.width) (ha : a.Canonical) :
    IsFirst (fun x => x.InColumn a.blockType a.half a.row a.column ∧
      x.minor < column.frameCount ∧ a.minor < x.minor) (column.next? a) := by
  have hself : a.InColumn a.blockType a.half a.row a.column := ⟨⟨⟨⟨ha, rfl⟩, rfl⟩, rfl⟩, rfl⟩
  unfold next?
  split
  case isTrue hlt =>
    have hminor : (a.withMinor (a.minor + 1)).minor = a.minor + 1 :=
      minor_pack_of_lt (Nat.lt_of_lt_of_le hlt hfits)
    have hnext : (a.withMinor (a.minor + 1)).InColumn a.blockType a.half a.row a.column :=
      a.names.inColumn a.row_lt a.column_lt _
    refine ⟨⟨hnext, by rwa [hminor], by rw [hminor]; exact Nat.lt_succ_self _⟩, ?_⟩
    rintro x ⟨hx, -, hgt⟩
    rcases Nat.lt_or_eq_of_le (Nat.succ_le_of_lt hgt) with hlt | heq
    · exact BitVec.le_of_lt (hnext.raw_lt hx (by rwa [hminor]))
    · have hsame : a.withMinor (a.minor + 1) = x := by
        rw [eq_pack hx.canonical, hx.blockType, hx.half, hx.row, hx.column, ← heq]
        rfl
      rw [hsame]
      exact BitVec.le_refl _
  case isFalse hge =>
    refine IsFirst.of_empty ?_
    rintro x ⟨-, hlt, hgt⟩
    omega

/-- The first frame of the first column is the lowest of a run of columns. -/
theorem Bus.isFirst_columns {entries : List (Nat × Column)}
    (hasc : entries.Pairwise fun c d => compare c.1 d.1 = .lt)
    (hfits : ∀ entry ∈ entries, entry.1 < 2 ^ f.addressLayout.column.width)
    (hpopulated : ∀ entry ∈ entries, 0 < entry.2.frameCount) (hnames : Names f b h)
    (hrow : row < 2 ^ f.addressLayout.row.width) :
    IsFirst (fun x => x.InRow b h row ∧
        ∃ column, (x.column, column) ∈ entries ∧ x.minor < column.frameCount)
      (entries.head?.map fun entry => pack f b h row entry.1 0) := by
  cases entries with
  | nil =>
    refine IsFirst.of_empty ?_
    rintro x ⟨-, column, hmem, -⟩
    cases hmem
  | cons entry rest =>
    obtain ⟨number, column⟩ := entry
    have hfirst : (pack f b h row number 0).InColumn b h row number :=
      hnames.inColumn hrow (hfits _ List.mem_cons_self) 0
    have hminor : (pack f b h row number 0).minor = 0 := minor_pack_of_lt (Nat.two_pow_pos _)
    refine ⟨⟨hfirst.toInRow, column, ?_, ?_⟩, ?_⟩
    · rw [hfirst.column]
      exact List.mem_cons_self
    · rw [hminor]
      exact hpopulated _ List.mem_cons_self
    · rintro x ⟨hx, column', hmem, -⟩
      refine hfirst.raw_le hminor hx ?_
      rcases List.mem_cons.1 hmem with heq | hmem
      · exact Nat.le_of_eq (congrArg Prod.fst heq).symm
      · have hlt := (List.pairwise_cons.1 hasc).1 _ hmem
        exact Nat.le_of_lt (Nat.compare_eq_lt.1 hlt)

variable {bus : Bus} (hfits : bus.Fits f) (hpopulated : bus.Populated)
include hfits hpopulated

/-- The first frame of a column of the bus is a frame of the bus. -/
theorem Bus.contains_pack {number : Nat} {column : Column}
    (hmem : (number, column) ∈ bus.columns.toList) :
    bus.contains (pack f b h row number 0) := by
  have hminor : (pack f b h row number 0).minor = 0 := minor_pack_of_lt (Nat.two_pow_pos _)
  refine Bus.contains_iff.2 ⟨column, ?_, ?_⟩
  · rwa [column_pack_of_lt (hfits _ _ hmem).1]
  · rw [hminor]
    exact hpopulated _ _ hmem

theorem Bus.isFirst_first (hnames : Names f b h) (hrow : row < 2 ^ f.addressLayout.row.width) :
    IsFirst (fun x => x.InRow b h row ∧ bus.contains x)
      (bus.firstColumn?.map fun number => pack f b h row number 0) := by
  have hcolumns := Bus.isFirst_columns bus.columns.ascending
    (fun entry hmem => (hfits _ _ hmem).1) (fun entry hmem => hpopulated _ _ hmem) hnames hrow
  have heq : (bus.firstColumn?.map fun number => pack f b h row number 0) =
      bus.columns.toList.head?.map fun entry => pack f b h row entry.1 0 := by
    rw [firstColumn?, Option.map_map]
    rfl
  rw [heq]
  exact hcolumns.congr fun x => and_congr_right fun _ => Bus.contains_iff.symm

/-- Without a later frame in the column, the bus goes on with the column behind. -/
theorem Bus.next?_eq {column : Column} (hcolumn : bus.columns.get? a.column = some column) :
    bus.next? a = (column.next? a).or ((bus.columns.after a.column).head?.map fun entry =>
      pack f a.blockType a.half a.row entry.1 0) := by
  unfold next?
  rw [hcolumn, Option.bind_eq_bind, Option.bind_some]
  cases column.next? a with
  | some next => rfl
  | none =>
    rw [Option.none_or]
    simp only
    rw [SortedMap.next?_eq_head?]
    cases hhead : (bus.columns.after a.column).head? with
    | none => rfl
    | some entry =>
      have hmem := (SortedMap.mem_after_iff.1 (List.mem_of_head? hhead)).1
      have hcontains : bus.contains (pack f a.blockType a.half a.row entry.1 0) :=
        Bus.contains_pack hfits hpopulated hmem
      simp [hcontains]

/-- **A bus goes on** with its lowest frame behind an address. -/
theorem Bus.isFirst_next? (ha : a.Canonical) (hcontains : bus.contains a) :
    IsFirst (fun x => x.InRow a.blockType a.half a.row ∧ bus.contains x ∧ a.raw < x.raw)
      (bus.next? a) := by
  obtain ⟨column, hmem, -⟩ := Bus.contains_iff.1 hcontains
  have hself : a.InRow a.blockType a.half a.row := ⟨⟨⟨ha, rfl⟩, rfl⟩, rfl⟩
  have hcolumn := Column.isFirst_next? (hfits _ _ hmem).2 ha
  have hafter := Bus.isFirst_columns (bus.columns.ascending_after a.column)
    (fun entry hentry => (hfits _ _ (SortedMap.mem_after_iff.1 hentry).1).1)
    (fun entry hentry => hpopulated _ _ (SortedMap.mem_after_iff.1 hentry).1) a.names a.row_lt
  rw [Bus.next?_eq hfits hpopulated (SortedMap.mem_toList_iff.1 hmem)]
  refine (hcolumn.or hafter ?_).congr fun x => ⟨?_, ?_⟩
  · rintro x y ⟨hx, -⟩ ⟨hy, _, hlater, -⟩
    have hlt := Nat.compare_eq_lt.1 (SortedMap.mem_after_iff.1 hlater).2
    exact hx.raw_lt_of_column hy (hx.column ▸ hlt)
  · rintro (⟨hx, hlt, hgt⟩ | ⟨hx, column', hlater, hlt⟩)
    · refine ⟨hx.toInRow, Bus.contains_iff.2 ⟨column, hx.column ▸ hmem, hlt⟩, ?_⟩
      exact InColumn.raw_lt ⟨hself, rfl⟩ hx hgt
    · obtain ⟨hmem', hcompare⟩ := SortedMap.mem_after_iff.1 hlater
      refine ⟨hx, Bus.contains_iff.2 ⟨column', hmem', hlt⟩, ?_⟩
      exact hself.raw_lt_of_column hx (Nat.compare_eq_lt.1 hcompare)
  · rintro ⟨hx, hxin, hgt⟩
    obtain ⟨column', hmem', hlt⟩ := Bus.contains_iff.1 hxin
    rcases hself.minor_or_column hx hgt with ⟨hsame, hminor⟩ | hlater
    · have hcolumns : column' = column := by
        rw [hsame] at hmem'
        have hget := (SortedMap.mem_toList_iff.1 hmem').symm.trans (SortedMap.mem_toList_iff.1 hmem)
        exact Option.some.inj hget
      exact .inl ⟨⟨hx, hsame⟩, hcolumns ▸ hlt, hminor⟩
    · exact .inr ⟨hx, column', SortedMap.mem_after_iff.2 ⟨hmem', Nat.compare_eq_lt.2 hlater⟩, hlt⟩

end Bus

/-! ## Rows and regions -/

/-- A row goes on along the bus of the block type. -/
theorem Row.isFirst_next? {row : Row} (hfits : row.Fits f) (hpopulated : row.Populated)
    {a : FrameAddress f} (ha : a.Canonical) (hcontains : row.contains a) :
    IsFirst (fun x => x.InRow a.blockType a.half a.row ∧ row.contains x ∧ a.raw < x.raw)
      (row.next? a) := by
  obtain ⟨bus, hmem, hbus⟩ := Row.contains_iff.1 hcontains
  have hget : row.buses.get? a.blockType = some bus := SortedMap.mem_toList_iff.1 hmem
  have hnext := Bus.isFirst_next? (hfits _ _ hmem) (hpopulated _ _ hmem) ha hbus
  have heq : row.next? a = bus.next? a := by
    rw [next?, bus?, hget, Option.bind_some]
  rw [heq]
  refine hnext.congr fun x => and_congr_right fun hx => and_congr_left fun _ => ?_
  rw [contains, bus?, hx.blockType, hget, Option.any_some]

section Region
variable {region : Region} (hfits : region.Fits f) (hpopulated : region.Populated)
include hfits hpopulated

/-- The address of the first column of a bus passes the test, as it names a frame of the bus. -/
theorem Region.firstInRow?_eq {b : BlockType} {h : Half} (hnames : Names f b h) {number : Nat}
    {row : Row} (hmem : (number, row) ∈ region.rows.toList) {bus : Bus}
    (hbus : row.bus? b = some bus) :
    region.firstInRow? b h number row =
      bus.firstColumn?.map fun column => pack f b h number column 0 := by
  obtain ⟨hnumber, hrow⟩ := hfits _ _ hmem
  have hbusmem := SortedMap.mem_toList_iff.2 hbus
  have hfirst := Bus.isFirst_first (hrow _ _ hbusmem) (hpopulated _ _ hmem _ _ hbusmem) hnames
    hnumber
  rw [firstInRow?, hbus, Option.bind_eq_bind, Option.bind_some]
  cases hcolumn : bus.firstColumn? with
  | none => rfl
  | some column =>
    have hhead : bus.contains (pack f b h number column 0) := by
      rw [hcolumn] at hfirst
      exact hfirst.1.2
    have hin : region.contains (pack f b h number column 0) := by
      refine Region.contains_iff.2 ⟨row, ?_, Row.contains_iff.2 ⟨bus, ?_, hhead⟩⟩
      · rwa [row_pack_of_lt hnumber]
      · rwa [hnames.blockType]
    simp [hin]

/-- The first frame of a block type in a row is its lowest there. -/
theorem Region.isFirst_firstInRow? {b : BlockType} {h : Half} (hnames : Names f b h) {number : Nat}
    {row : Row} (hmem : (number, row) ∈ region.rows.toList) :
    IsFirst (fun x : FrameAddress f => x.InRow b h number ∧ row.contains x)
      (region.firstInRow? b h number row) := by
  obtain ⟨hnumber, hrow⟩ := hfits _ _ hmem
  cases hbus : row.bus? b with
  | none =>
    have heq : region.firstInRow? (f := f) b h number row = none := by
      rw [firstInRow?, hbus]
      rfl
    rw [heq]
    refine IsFirst.of_empty ?_
    rintro x ⟨hx, hcontains⟩
    rw [Row.contains, hx.blockType, hbus] at hcontains
    cases hcontains
  | some bus =>
    have hbusmem := SortedMap.mem_toList_iff.2 hbus
    have hfirst := Bus.isFirst_first (hrow _ _ hbusmem) (hpopulated _ _ hmem _ _ hbusmem) hnames
      hnumber
    rw [Region.firstInRow?_eq hfits hpopulated hnames hmem hbus]
    refine hfirst.congr fun x => and_congr_right fun hx => ?_
    rw [Row.contains, hx.blockType, hbus, Option.any_some]

/-- The first frame of a block type in the first row that has one is the lowest of a run of
rows. -/
theorem Region.isFirst_rows {b : BlockType} {h : Half} {entries : List (Nat × Row)}
    (hasc : entries.Pairwise fun c d => compare c.1 d.1 = .lt)
    (hsub : ∀ entry ∈ entries, entry ∈ region.rows.toList ∧ Names f b h) :
    IsFirst (fun x : FrameAddress f =>
        x.InHalf b h ∧ ∃ row, (x.row, row) ∈ entries ∧ row.contains x)
      (entries.findSome? fun (number, row) => region.firstInRow? b h number row) := by
  have hfirst := IsFirst.findSome?
    (S := fun (entry : Nat × Row) x => x.InRow b h entry.1 ∧ entry.2.contains x)
    (g := fun (number, row) => region.firstInRow? b h number row)
    (fun entry hmem => Region.isFirst_firstInRow? hfits hpopulated (hsub entry hmem).2
      (hsub entry hmem).1)
    (hasc.imp fun hlt x y hx hy => hx.1.raw_lt hy.1 (Nat.compare_eq_lt.1 hlt))
  refine hfirst.congr fun x => ⟨?_, ?_⟩
  · rintro ⟨⟨number, row⟩, hmem, hx, hcontains⟩
    exact ⟨hx.toInHalf, row, hx.row ▸ hmem, hcontains⟩
  · rintro ⟨hx, row, hmem, hcontains⟩
    exact ⟨(x.row, row), hmem, ⟨hx, rfl⟩, hcontains⟩

theorem Region.isFirst_first? {b : BlockType} {h : Half}
    (hnames : region.rows.toList ≠ [] → Names f b h) :
    IsFirst (fun x : FrameAddress f => x.InHalf b h ∧ region.contains x)
      (region.first? b h) := by
  have hrows := Region.isFirst_rows hfits hpopulated (b := b) (h := h) region.rows.ascending
    fun entry hmem => ⟨hmem, hnames (List.ne_nil_of_mem hmem)⟩
  exact hrows.congr fun x => and_congr_right fun _ => Region.contains_iff.symm

/-- **A region goes on** with its lowest frame of the block type behind an address. -/
theorem Region.isFirst_next? {a : FrameAddress f} (ha : a.Canonical)
    (hcontains : region.contains a) :
    IsFirst (fun x => x.InHalf a.blockType a.half ∧ region.contains x ∧ a.raw < x.raw)
      (region.next? a) := by
  obtain ⟨row, hmem, hrow⟩ := Region.contains_iff.1 hcontains
  have hget := SortedMap.mem_toList_iff.1 hmem
  have hself : a.InRow a.blockType a.half a.row := ⟨⟨⟨ha, rfl⟩, rfl⟩, rfl⟩
  have hnext := Row.isFirst_next? (hfits _ _ hmem).2 (hpopulated _ _ hmem) ha hrow
  have hlater := Region.isFirst_rows hfits hpopulated (region.rows.ascending_after a.row)
    fun entry hentry => ⟨(SortedMap.mem_after_iff.1 hentry).1, a.names⟩
  have heq : region.next? a = (row.next? a).or ((region.rows.after a.row).findSome?
      fun (number, row) => region.firstInRow? a.blockType a.half number row) := by
    rw [next?, hget, Option.bind_eq_bind, Option.bind_some]
    cases row.next? a <;> rfl
  rw [heq]
  refine (hnext.or hlater ?_).congr fun x => ⟨?_, ?_⟩
  · rintro x y ⟨hx, -⟩ ⟨hy, _, hafter, -⟩
    have hlt := Nat.compare_eq_lt.1 (SortedMap.mem_after_iff.1 hafter).2
    exact hx.raw_lt ⟨hy, rfl⟩ hlt
  · rintro (⟨hx, hxrow, hgt⟩ | ⟨hx, row', hafter, hxrow⟩)
    · exact ⟨hx.toInHalf, Region.contains_iff.2 ⟨row, hx.row ▸ hmem, hxrow⟩, hgt⟩
    · obtain ⟨hmem', hcompare⟩ := SortedMap.mem_after_iff.1 hafter
      refine ⟨hx, Region.contains_iff.2 ⟨row', hmem', hxrow⟩, ?_⟩
      exact hself.raw_lt ⟨hx, rfl⟩ (Nat.compare_eq_lt.1 hcompare)
  · rintro ⟨hx, hxin, hgt⟩
    obtain ⟨row', hmem', hxrow⟩ := Region.contains_iff.1 hxin
    rcases Nat.lt_or_eq_of_le (hself.row_le hx hgt) with hlt | hsame
    · exact .inr ⟨hx, row', SortedMap.mem_after_iff.2 ⟨hmem', Nat.compare_eq_lt.2 hlt⟩, hxrow⟩
    · have hrows : row' = row := by
        rw [← hsame] at hmem'
        exact Option.some.inj ((SortedMap.mem_toList_iff.1 hmem').symm.trans hget)
      exact .inl ⟨⟨hx, hsame.symm⟩, hrows ▸ hxrow, hgt⟩

end Region

/-! ## Parts -/

namespace Part

/-- Every column of a part has a frame. -/
def Populated (part : Part f) : Prop :=
  match part.layout with
  | .regions top bottom => top.Populated ∧ bottom.Populated
  | .ranges _ => True

/-- An address of the part that the configuration logic can walk to: one of a configurable block
type, without reserved bits. -/
structure IsFrame (part : Part f) (a : FrameAddress f) : Prop where
  canonical : a.Canonical
  blockType : a.blockType ∈ BlockType.configurable
  contains : part.contains a

/-- The addresses of a part that can be walked to are those that can be packed from fields. -/
theorem isFrame_iff {part : Part f} {a : FrameAddress f} :
    part.IsFrame a ↔ part.contains a ∧ ∃ b ∈ BlockType.configurable,
      ∃ half row column minor, a = pack f b half row column minor := by
  constructor
  · rintro ⟨hcanonical, hblock, hcontains⟩
    exact ⟨hcontains, a.blockType, hblock, a.half, a.row, a.column, a.minor, eq_pack hcanonical⟩
  · rintro ⟨hcontains, b, hb, half, row, column, minor, rfl⟩
    refine ⟨canonical_pack .., ?_, hcontains⟩
    rwa [blockType_pack_of_configurable hb]

section Regions
variable {part : Part f} {top bottom : Region} (hlayout : part.layout = .regions top bottom)
include hlayout

theorem contains_of_top {a : FrameAddress f} (ha : a.half = .top) :
    part.contains a = top.contains a := by
  simp only [contains, hlayout, ha]

theorem contains_of_bottom {a : FrameAddress f} (ha : a.half = .bottom) :
    part.contains a = bottom.contains a := by
  simp only [contains, hlayout, ha]

variable (hfits : part.Fits) (hpopulated : part.Populated)
include hfits hpopulated

theorem isFirst_top {b : BlockType} (hb : b ∈ BlockType.configurable) :
    IsFirst (fun x : FrameAddress f => x.InHalf b .top ∧ part.contains x)
      (top.first? b .top) := by
  simp only [Fits, Populated, hlayout] at hfits hpopulated
  have hfirst := Region.isFirst_first? hfits.1 hpopulated.1 (b := b) (h := .top) fun _ =>
    names_of_configurable hb fun _ => rfl
  refine hfirst.congr fun x => and_congr_right fun hx => ?_
  rw [contains_of_top hlayout hx.half]

theorem isFirst_bottom {b : BlockType} (hb : b ∈ BlockType.configurable) :
    IsFirst (fun x : FrameAddress f => x.InHalf b .bottom ∧ part.contains x)
      (bottom.first? b .bottom) := by
  simp only [Fits, Populated, hlayout] at hfits hpopulated
  -- a family without a half selector has no rows in the bottom half
  have hfirst := Region.isFirst_first? hfits.2.1 hpopulated.2 (b := b) (h := .bottom) fun hne =>
    names_of_configurable hb fun hnone => absurd (hfits.2.2 hnone) hne
  refine hfirst.congr fun x => and_congr_right fun hx => ?_
  rw [contains_of_bottom hlayout hx.half]

/-- The first frame of a block type is the lowest of both halves. -/
theorem isFirst_firstOfType? {b : BlockType} (hb : b ∈ BlockType.configurable) :
    IsFirst (fun x : FrameAddress f => x.OfType b ∧ part.contains x)
      (firstOfType? top bottom b) := by
  have htop := isFirst_top hlayout hfits hpopulated hb
  have hbottom := isFirst_bottom hlayout hfits hpopulated hb
  refine (htop.or hbottom fun x y hx hy => hx.1.raw_lt hy.1).congr fun x => ⟨?_, ?_⟩
  · rintro (⟨hx, hcontains⟩ | ⟨hx, hcontains⟩)
    · exact ⟨hx.toOfType, hcontains⟩
    · exact ⟨hx.toOfType, hcontains⟩
  · rintro ⟨hx, hcontains⟩
    cases hhalf : x.half with
    | top => exact .inl ⟨⟨hx, hhalf⟩, hcontains⟩
    | bottom => exact .inr ⟨⟨hx, hhalf⟩, hcontains⟩

/-- The first frame of the first of some block types, in their order. -/
theorem isFirst_types {types : List BlockType} (hasc : types.Pairwise fun b c => b.code < c.code)
    (hsub : ∀ b ∈ types, b ∈ BlockType.configurable) :
    IsFirst (fun x : FrameAddress f => x.Canonical ∧ x.blockType ∈ types ∧ part.contains x)
      (types.findSome? (firstOfType? top bottom)) := by
  have hfirst := IsFirst.findSome? (g := firstOfType? top bottom)
    (S := fun b (x : FrameAddress f) => x.OfType b ∧ part.contains x)
    (fun b hb => isFirst_firstOfType? hlayout hfits hpopulated (hsub b hb))
    (hasc.imp fun hlt x y hx hy => hx.1.raw_lt hy.1 hlt)
  refine hfirst.congr fun x => ⟨?_, ?_⟩
  · rintro ⟨b, hb, hx, hcontains⟩
    exact ⟨hx.canonical, hx.blockType.symm ▸ hb, hcontains⟩
  · rintro ⟨hcanonical, hblock, hcontains⟩
    exact ⟨x.blockType, hblock, ⟨hcanonical, rfl⟩, hcontains⟩

omit hfits hpopulated hlayout in
theorem ascending_configurable :
    BlockType.configurable.Pairwise fun b c => b.code < c.code := by
  decide

theorem isFirst_first? : IsFirst part.IsFrame part.first? := by
  have hfirst := isFirst_types hlayout hfits hpopulated ascending_configurable fun _ hb => hb
  have heq : part.first? = BlockType.configurable.findSome? (firstOfType? top bottom) := by
    simp only [first?, hlayout]
  rw [heq]
  refine hfirst.congr fun x => ⟨?_, ?_⟩
  · rintro ⟨hcanonical, htype, hcontains⟩
    exact ⟨hcanonical, htype, hcontains⟩
  · rintro ⟨hcanonical, htype, hcontains⟩
    exact ⟨hcanonical, htype, hcontains⟩

omit hlayout hfits hpopulated in
/-- The block types behind a configurable one. -/
theorem mem_later_types_iff {b c : BlockType} (hb : b ∈ BlockType.configurable) :
    c ∈ ([BlockType.blockRam, BlockType.cfgClb].filter fun candidate =>
        compare b candidate = .lt) ↔ c ∈ BlockType.configurable ∧ b.code < c.code := by
  simp only [BlockType.configurable, List.mem_cons, List.not_mem_nil, or_false] at hb
  rcases hb with rfl | rfl | rfl
  · have hlater : ([BlockType.blockRam, BlockType.cfgClb].filter fun candidate =>
        compare BlockType.clbIoClk candidate = .lt) = [.blockRam, .cfgClb] := by decide
    rw [hlater]
    cases c <;> simp [BlockType.configurable, BlockType.code]
  · have hlater : ([BlockType.blockRam, BlockType.cfgClb].filter fun candidate =>
        compare BlockType.blockRam candidate = .lt) = [.cfgClb] := by decide
    rw [hlater]
    cases c <;> simp [BlockType.configurable, BlockType.code]
  · have hlater : ([BlockType.blockRam, BlockType.cfgClb].filter fun candidate =>
        compare BlockType.cfgClb candidate = .lt) = [] := by decide
    rw [hlater]
    cases c <;> simp [BlockType.configurable, BlockType.code]

/-- Behind a half that has run out comes the lowest frame of what is left: the bottom half of the
block type, and all of the later block types. -/
theorem isFirst_nextHalf? {a : FrameAddress f} (ha : a.blockType ∈ BlockType.configurable) :
    IsFirst (fun x : FrameAddress f => part.IsFrame x ∧
        (x.blockType = a.blockType ∧ a.half = .top ∧ x.half = .bottom ∨
          a.blockType.code < x.blockType.code)) (nextHalf? top bottom a) := by
  obtain ⟨other, hother⟩ : ∃ other : Option (FrameAddress f),
      other = if a.half = .top then bottom.first? a.blockType .bottom else none := ⟨_, rfl⟩
  have hhalf : IsFirst (fun x : FrameAddress f =>
      (x.InHalf a.blockType .bottom ∧ part.contains x) ∧ a.half = .top) other := by
    rw [hother]
    split
    case isTrue htop =>
      exact (isFirst_bottom hlayout hfits hpopulated ha).congr fun x => (and_iff_left htop).symm
    case isFalse hbottom => exact IsFirst.of_empty fun x hx => hbottom hx.2
  have hasc : ([BlockType.blockRam, BlockType.cfgClb].filter fun candidate =>
      compare a.blockType candidate = .lt).Pairwise fun b c => b.code < c.code :=
    List.Pairwise.filter _ (by decide)
  have htypes := isFirst_types hlayout hfits hpopulated hasc fun b hb =>
    ((mem_later_types_iff ha).1 hb).1
  rw [nextHalf?, ← hother]
  refine (hhalf.or htypes ?_).congr fun x => ⟨?_, ?_⟩
  · rintro x y ⟨⟨hx, -⟩, -⟩ ⟨hy, hlater, -⟩
    exact hx.toOfType.raw_lt ⟨hy, rfl⟩ ((mem_later_types_iff ha).1 hlater).2
  · rintro (⟨⟨hx, hcontains⟩, htop⟩ | ⟨hcanonical, hlater, hcontains⟩)
    · exact ⟨⟨hx.canonical, hx.blockType.symm ▸ ha, hcontains⟩, .inl ⟨hx.blockType, htop, hx.half⟩⟩
    · obtain ⟨hblock, hlt⟩ := (mem_later_types_iff ha).1 hlater
      exact ⟨⟨hcanonical, hblock, hcontains⟩, .inr hlt⟩
  · rintro ⟨⟨hcanonical, hblock, hcontains⟩, ⟨hsame, htop, hbottom⟩ | hlt⟩
    · exact .inl ⟨⟨⟨⟨hcanonical, hsame⟩, hbottom⟩, hcontains⟩, htop⟩
    · exact .inr ⟨hcanonical, (mem_later_types_iff ha).2 ⟨hblock, hlt⟩, hcontains⟩

/-- What lies behind an address in its half, or behind its half. -/
theorem isFirst_next_of_region {region : Region} (hregionFits : region.Fits f)
    (hregionPopulated : region.Populated) {a : FrameAddress f} (ha : part.IsFrame a)
    (hsame : ∀ x : FrameAddress f, x.half = a.half → part.contains x = region.contains x) :
    IsFirst (fun x => part.IsFrame x ∧ a.raw < x.raw)
      ((region.next? a).or (nextHalf? top bottom a)) := by
  have hself : a.InHalf a.blockType a.half := ⟨⟨ha.canonical, rfl⟩, rfl⟩
  have hcontains : region.contains a := by
    rw [← hsame a rfl]
    exact ha.contains
  have hnext := Region.isFirst_next? hregionFits hregionPopulated ha.canonical hcontains
  have hbehind := isFirst_nextHalf? hlayout hfits hpopulated ha.blockType
  have hlater : ∀ x y : FrameAddress f, x.InHalf a.blockType a.half → part.IsFrame y →
      (y.blockType = a.blockType ∧ a.half = .top ∧ y.half = .bottom ∨
        a.blockType.code < y.blockType.code) → x.raw < y.raw := by
    rintro x y hx hy (⟨hblock, htop, hbottom⟩ | hlt)
    · rw [htop] at hx
      exact hx.raw_lt ⟨⟨hy.canonical, hblock⟩, hbottom⟩
    · exact hx.toOfType.raw_lt ⟨hy.canonical, rfl⟩ hlt
  refine (hnext.or hbehind ?_).congr fun x => ⟨?_, ?_⟩
  · rintro x y ⟨hx, -⟩ ⟨hy, hbehind⟩
    exact hlater x y hx hy hbehind
  · rintro (⟨hx, hin, hgt⟩ | ⟨hx, hbehind⟩)
    · refine ⟨⟨hx.canonical, hx.blockType.symm ▸ ha.blockType, ?_⟩, hgt⟩
      rwa [hsame x hx.half]
    · exact ⟨hx, hlater a x hself hx hbehind⟩
  · rintro ⟨hx, hgt⟩
    cases precedes_of_raw_lt ha.canonical hx.canonical hgt with
    | blockType hlt => exact .inr ⟨hx, .inr hlt⟩
    | half hblock hlt =>
      -- the codes of two halves differ only from the top to the bottom
      have hhalves : a.half = .top ∧ x.half = .bottom := by
        cases hah : a.half <;> cases hxh : x.half <;> simp_all [Half.code]
      exact .inr ⟨hx, .inl ⟨hblock.symm, hhalves⟩⟩
    | row hblock hhalf _ | column hblock hhalf _ _ | minor hblock hhalf _ _ _ =>
      refine .inl ⟨⟨⟨hx.canonical, hblock.symm⟩, hhalf.symm⟩, ?_, hgt⟩
      rw [← hsame x hhalf.symm]
      exact hx.contains

/-- **A part goes on** with its lowest frame behind an address. -/
theorem isFirst_next? {a : FrameAddress f} (ha : part.IsFrame a) :
    IsFirst (fun x => part.IsFrame x ∧ a.raw < x.raw) (part.next? a) := by
  have hregions := hfits
  have hcolumns := hpopulated
  simp only [Fits, Populated, hlayout] at hregions hcolumns
  have hcontains := ha.contains
  cases hhalf : a.half with
  | top =>
    rw [contains_of_top hlayout hhalf] at hcontains
    have heq : part.next? a = (top.next? a).or (nextHalf? top bottom a) := by
      simp only [next?, hlayout, hhalf, hcontains, if_true]
    rw [heq]
    refine isFirst_next_of_region hlayout hfits hpopulated hregions.1 hcolumns.1 ha fun x hx => ?_
    exact contains_of_top hlayout (hx.trans hhalf)
  | bottom =>
    rw [contains_of_bottom hlayout hhalf] at hcontains
    have heq : part.next? a = (bottom.next? a).or (nextHalf? top bottom a) := by
      simp only [next?, hlayout, hhalf, hcontains, if_true]
    rw [heq]
    refine isFirst_next_of_region hlayout hfits hpopulated hregions.2.1 hcolumns.2 ha fun x hx => ?_
    exact contains_of_bottom hlayout (hx.trans hhalf)

end Regions

/-- An address that names no frame of the part has no next. -/
theorem next?_eq_none_of_not_contains {part : Part f} {a : FrameAddress f}
    (ha : ¬ part.contains a) : part.next? a = none := by
  unfold contains at ha
  unfold next?
  cases hlayout : part.layout with
  | regions top bottom =>
    simp only [hlayout] at ha
    cases hhalf : a.half <;> simp_all
  | ranges ranges =>
    simp only [hlayout] at ha ⊢
    have hnone : ∀ entries : List AddressRange, ¬ entries.any (·.contains a.raw) →
        AddressRanges.nextIn? a.raw entries = none := by
      intro entries hany
      induction entries with
      | nil => rfl
      | cons range rest ih =>
        simp only [List.any_cons, Bool.or_eq_true, not_or] at hany
        rw [AddressRanges.nextIn?, if_neg hany.1]
        exact ih hany.2
    rw [hnone _ ha]
    rfl

/-! ## The walk -/

/-- The walk starts at the lowest address of a set, and each step leads to the lowest one behind. -/
structure Enumerates (part : Part f) (S : FrameAddress f → Prop) : Prop where
  first : IsFirst S part.first?
  next : ∀ a, S a → IsFirst (fun x => S x ∧ a.raw < x.raw) (part.next? a)

/-- **The walk of a topology** whose numbers fit and whose columns are not empty. -/
theorem enumerates_of_regions {part : Part f} {top bottom : Region}
    (hlayout : part.layout = .regions top bottom) (hfits : part.Fits)
    (hpopulated : part.Populated) : part.Enumerates part.IsFrame :=
  ⟨isFirst_first? hlayout hfits hpopulated, fun _ => isFirst_next? hlayout hfits hpopulated⟩

section Enumerates
variable {part : Part f} {S : FrameAddress f → Prop} (h : part.Enumerates S)
include h

theorem Enumerates.of_first {a : FrameAddress f} (ha : part.first? = some a) :
    S a ∧ ∀ x, S x → a.raw ≤ x.raw := by
  have hfirst := h.first
  rwa [ha] at hfirst

theorem Enumerates.of_next {a b : FrameAddress f} (ha : S a) (hb : part.next? a = some b) :
    (S b ∧ a.raw < b.raw) ∧ ∀ x, S x ∧ a.raw < x.raw → b.raw ≤ x.raw := by
  have hnext := h.next a ha
  rwa [hb] at hnext

theorem Enumerates.of_visited {a : FrameAddress f} (ha : part.Visited a) : S a := by
  induction ha with
  | first ha => exact (h.of_first ha).1
  | next _ hb ih => exact (h.of_next ih hb).1.1

theorem Enumerates.climbs : part.Climbs :=
  fun _ _ ha hb => (h.of_next (h.of_visited ha) hb).1.2

/-- A stretch of the walk goes through the addresses of the set from its first on. -/
theorem Enumerates.mem_iff_of_walks {a : FrameAddress f} {rest : List (FrameAddress f)}
    (hwalks : part.Walks (a :: rest)) (ha : S a) (x : FrameAddress f) :
    x ∈ a :: rest ↔ S x ∧ a.raw ≤ x.raw := by
  induction rest generalizing a with
  | nil =>
    obtain hlast | _ := hwalks
    have hnone := h.next a ha
    rw [hlast] at hnone
    constructor
    · intro hx
      obtain rfl := List.mem_singleton.1 hx
      exact ⟨ha, BitVec.le_refl _⟩
    · rintro ⟨hx, hle⟩
      have hge : x.raw ≤ a.raw := BitVec.not_lt.1 fun hgt => hnone x ⟨hx, hgt⟩
      rw [List.mem_singleton]
      exact FrameAddress.eq_of_raw_eq (BitVec.le_antisymm hge hle)
  | cons b rest ih =>
    obtain _ | ⟨hb, hrest⟩ := hwalks
    obtain ⟨⟨hbS, hlt⟩, hleast⟩ := h.of_next ha hb
    rw [List.mem_cons, ih hrest hbS]
    constructor
    · rintro (rfl | ⟨hx, hle⟩)
      · exact ⟨ha, BitVec.le_refl _⟩
      · exact ⟨hx, BitVec.le_trans (BitVec.le_of_lt hlt) hle⟩
    · rintro ⟨hx, hle⟩
      by_cases heq : a.raw = x.raw
      · exact .inl (FrameAddress.eq_of_raw_eq heq.symm)
      · exact .inr ⟨hx, hleast x ⟨hx, BitVec.lt_of_le_ne hle heq⟩⟩

/-- **The walk visits the set**, and nothing else. -/
theorem Enumerates.mem_addresses_iff (a : FrameAddress f) : a ∈ part.addresses ↔ S a := by
  obtain ⟨hfirst, hwalks, -⟩ := h.climbs.walks_addresses
  cases haddresses : part.addresses with
  | nil =>
    have hnone := h.first
    rw [hfirst, haddresses] at hnone
    exact ⟨nofun, fun ha => absurd ha (hnone a)⟩
  | cons b rest =>
    rw [haddresses] at hfirst hwalks
    obtain ⟨hb, hleast⟩ := h.of_first hfirst
    rw [h.mem_iff_of_walks (hwalks (List.cons_ne_nil _ _)) hb]
    exact and_iff_left_of_imp (hleast a)

end Enumerates

/-- Each address of a walk is followed by the next. -/
theorem Walks.next?_getElem {part : Part f} {addresses : List (FrameAddress f)}
    (h : part.Walks addresses) (i : Nat) (hi : i < addresses.length) :
    part.next? addresses[i] = addresses[i + 1]? := by
  induction h generalizing i with
  | last hlast =>
    obtain rfl : i = 0 := Nat.lt_one_iff.1 hi
    exact hlast
  | cons hnext _ ih =>
    cases i with
    | zero => exact hnext
    | succ i => exact ih i (Nat.lt_of_succ_lt_succ hi)

end Part
end FpgaBitstream
