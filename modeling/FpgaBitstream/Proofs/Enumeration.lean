import FpgaBitstream.Proofs.Walk

/-!
# Parts built from a list of frames

A part can be built from any list of frame addresses: the groups into which each level sorts them
agree in the fields that the level below asks for (`Part.exists_ofAddresses`).  Building sorts by
half, row, block type and column, and a column reaches up to its highest minor frame, so the part
holds the frames of the list and the lower minor frames of their columns
(`Part.contains_of_ofAddresses`).  As no column is empty, the walk enumerates just these frames
(`Part.walk_ofAddresses`).
-/

namespace FpgaBitstream

variable {f : Family} {addresses : List (FrameAddress f)}

theorem allAgree_of_forall {α β : Type} [DecidableEq β] {field : α → β} {elements : List α}
    (value : β) (h : ∀ x ∈ elements, field x = value) : allAgree field elements := by
  cases elements with
  | nil => rfl
  | cons first rest =>
    refine List.all_eq_true.2 fun x hx => decide_eq_true ?_
    rw [h x (List.mem_cons_of_mem _ hx), h first List.mem_cons_self]

/-! ## Addresses that agree build a level -/

section Exists
variable (b : BlockType) (h : Half) (row column : Nat)

theorem Column.exists_ofAddresses (hne : addresses ≠ [])
    (hagree : ∀ x ∈ addresses,
      x.blockType = b ∧ x.half = h ∧ x.row = row ∧ x.column = column) :
    ∃ column, Column.ofAddresses addresses = .ok column := by
  have hall : allAgree (·.withMinor 0) addresses := by
    refine allAgree_of_forall (FrameAddress.pack f b h row column 0) fun x hx => ?_
    obtain ⟨hblock, hhalf, hrow, hcolumn⟩ := hagree x hx
    rw [FrameAddress.withMinor, hblock, hhalf, hrow, hcolumn]
  exact ⟨⟨_⟩, Column.ofAddresses_eq_ok.2 ⟨hne, hall, rfl⟩⟩

theorem Bus.exists_ofAddresses
    (hagree : ∀ x ∈ addresses, x.blockType = b ∧ x.half = h ∧ x.row = row) :
    ∃ bus, Bus.ofAddresses addresses = .ok bus := by
  have hcolumns : ∃ columns, (groupByKey (·.column) addresses).mapM
      (fun _ group => Column.ofAddresses group) = .ok columns := by
    refine exists_mapM_groupByKey fun number hne =>
      Column.exists_ofAddresses b h row number hne fun x hx => ?_
    obtain ⟨hmem, hcolumn⟩ := List.mem_filter.1 hx
    obtain ⟨hblock, hhalf, hrow⟩ := hagree x hmem
    exact ⟨hblock, hhalf, hrow, of_decide_eq_true hcolumn⟩
  obtain ⟨columns, hcolumns⟩ := hcolumns
  refine ⟨⟨columns⟩, Bus.ofAddresses_eq_ok.2
    ⟨allAgree_of_forall (b, h, row) fun x hx => ?_, hcolumns⟩⟩
  obtain ⟨hblock, hhalf, hrow⟩ := hagree x hx
  rw [hblock, hhalf, hrow]

theorem Row.exists_ofAddresses (hagree : ∀ x ∈ addresses, x.half = h ∧ x.row = row) :
    ∃ row, Row.ofAddresses addresses = .ok row := by
  have hbuses : ∃ buses, (groupByKey (·.blockType) addresses).mapM
      (fun _ group => Bus.ofAddresses group) = .ok buses := by
    refine exists_mapM_groupByKey fun blockType _ =>
      Bus.exists_ofAddresses blockType h row fun x hx => ?_
    obtain ⟨hmem, hblock⟩ := List.mem_filter.1 hx
    exact ⟨of_decide_eq_true hblock, hagree x hmem⟩
  obtain ⟨buses, hbuses⟩ := hbuses
  refine ⟨⟨buses⟩, Row.ofAddresses_eq_ok.2 ⟨allAgree_of_forall (h, row) fun x hx => ?_, hbuses⟩⟩
  obtain ⟨hhalf, hrow⟩ := hagree x hx
  rw [hhalf, hrow]

theorem Region.exists_ofAddresses (hagree : ∀ x ∈ addresses, x.half = h) :
    ∃ region, Region.ofAddresses addresses = .ok region := by
  have hrows : ∃ rows, (groupByKey (·.row) addresses).mapM
      (fun _ group => Row.ofAddresses group) = .ok rows := by
    refine exists_mapM_groupByKey fun number _ => Row.exists_ofAddresses h number fun x hx => ?_
    obtain ⟨hmem, hrow⟩ := List.mem_filter.1 hx
    exact ⟨hagree x hmem, of_decide_eq_true hrow⟩
  obtain ⟨rows, hrows⟩ := hrows
  exact ⟨⟨rows⟩, Region.ofAddresses_eq_ok.2 ⟨allAgree_of_forall h hagree, hrows⟩⟩

end Exists

/-- **Every list of addresses builds a part.** -/
theorem Part.exists_ofAddresses (idcode : Word) (addresses : List (FrameAddress f)) :
    ∃ part, Part.ofAddresses idcode addresses = .ok part := by
  have hhalf : ∀ h : Half,
      ∃ region, Region.ofAddresses (addresses.filter fun a => a.half = h) = .ok region :=
    fun h => Region.exists_ofAddresses h fun x hx => of_decide_eq_true (List.mem_filter.1 hx).2
  obtain ⟨top, htop⟩ := hhalf .top
  obtain ⟨bottom, hbottom⟩ := hhalf .bottom
  exact ⟨_, Part.ofAddresses_eq_ok.2 ⟨top, bottom, htop, hbottom, rfl⟩⟩

/-! ## No column is empty -/

theorem Bus.populated_of_ofAddresses {bus : Bus} (h : Bus.ofAddresses addresses = .ok bus) :
    bus.Populated := by
  intro number column hmem
  obtain ⟨group, -, hcolumn⟩ := SortedMap.mem_of_mapM (Bus.ofAddresses_eq_ok.1 h).2 hmem
  rw [(Column.ofAddresses_eq_ok.1 hcolumn).2.2]
  exact Nat.succ_pos _

theorem Row.populated_of_ofAddresses {row : Row} (h : Row.ofAddresses addresses = .ok row) :
    row.Populated := by
  intro blockType bus hmem
  obtain ⟨group, -, hbus⟩ := SortedMap.mem_of_mapM (Row.ofAddresses_eq_ok.1 h).2 hmem
  exact Bus.populated_of_ofAddresses hbus

theorem Region.populated_of_ofAddresses {region : Region}
    (h : Region.ofAddresses addresses = .ok region) : region.Populated := by
  intro number row hmem
  obtain ⟨group, -, hrow⟩ := SortedMap.mem_of_mapM (Region.ofAddresses_eq_ok.1 h).2 hmem
  exact Row.populated_of_ofAddresses hrow

/-! ## What a built level holds -/

section Contains
variable {a : FrameAddress f}

theorem Column.contains_of_ofAddresses {column : Column}
    (h : Column.ofAddresses addresses = .ok column) :
    column.contains a ↔ ∃ x ∈ addresses, a.minor ≤ x.minor := by
  obtain ⟨hne, -, hcount⟩ := Column.ofAddresses_eq_ok.1 h
  rw [Column.contains, hcount, decide_eq_true_iff, Nat.lt_succ_iff, le_foldl_max_iff]
  refine or_iff_right_of_imp fun hzero => ?_
  obtain ⟨x, hx⟩ := List.exists_mem_of_ne_nil _ hne
  exact ⟨x, hx, Nat.le_trans hzero (Nat.zero_le _)⟩

theorem Bus.contains_of_ofAddresses {bus : Bus} (h : Bus.ofAddresses addresses = .ok bus) :
    bus.contains a ↔ ∃ x ∈ addresses, x.column = a.column ∧ a.minor ≤ x.minor :=
  any_get?_of_mapM_groupByKey (Bus.ofAddresses_eq_ok.1 h).2
    fun _ _ hcolumn => Column.contains_of_ofAddresses hcolumn

theorem Row.contains_of_ofAddresses {row : Row} (h : Row.ofAddresses addresses = .ok row) :
    row.contains a ↔
      ∃ x ∈ addresses, x.blockType = a.blockType ∧ x.column = a.column ∧ a.minor ≤ x.minor :=
  any_get?_of_mapM_groupByKey (Row.ofAddresses_eq_ok.1 h).2
    fun _ _ hbus => Bus.contains_of_ofAddresses hbus

theorem Region.contains_of_ofAddresses {region : Region}
    (h : Region.ofAddresses addresses = .ok region) :
    region.contains a ↔ ∃ x ∈ addresses, x.row = a.row ∧ x.blockType = a.blockType ∧
      x.column = a.column ∧ a.minor ≤ x.minor :=
  any_get?_of_mapM_groupByKey (Region.ofAddresses_eq_ok.1 h).2
    fun _ _ hrow => Row.contains_of_ofAddresses hrow

end Contains

namespace Part
variable {part : Part f} {idcode : Word}

/-- **A built part holds** the frames of its list, and the lower minor frames of their columns. -/
theorem contains_of_ofAddresses (h : Part.ofAddresses idcode addresses = .ok part)
    (a : FrameAddress f) :
    part.contains a ↔ ∃ x ∈ addresses, x.blockType = a.blockType ∧ x.half = a.half ∧
      x.row = a.row ∧ x.column = a.column ∧ a.minor ≤ x.minor := by
  obtain ⟨top, bottom, htop, hbottom, rfl⟩ := ofAddresses_eq_ok.1 h
  have hregion : ∀ region : Region,
      Region.ofAddresses (addresses.filter fun x => x.half = a.half) = .ok region →
        (region.contains a ↔ ∃ x ∈ addresses, x.blockType = a.blockType ∧ x.half = a.half ∧
          x.row = a.row ∧ x.column = a.column ∧ a.minor ≤ x.minor) := by
    intro region hregion
    rw [Region.contains_of_ofAddresses hregion]
    constructor
    · rintro ⟨x, hx, hrow, hblock, hcolumn, hminor⟩
      obtain ⟨hmem, hhalf⟩ := List.mem_filter.1 hx
      exact ⟨x, hmem, hblock, of_decide_eq_true hhalf, hrow, hcolumn, hminor⟩
    · rintro ⟨x, hmem, hblock, hhalf, hrow, hcolumn, hminor⟩
      exact ⟨x, List.mem_filter.2 ⟨hmem, decide_eq_true hhalf⟩, hrow, hblock, hcolumn, hminor⟩
  cases hhalf : a.half with
  | top =>
    rw [contains_of_top rfl hhalf, hregion top (hhalf ▸ htop), hhalf]
  | bottom =>
    rw [contains_of_bottom rfl hhalf, hregion bottom (hhalf ▸ hbottom), hhalf]

theorem enumerates_of_ofAddresses (h : Part.ofAddresses idcode addresses = .ok part) :
    part.Enumerates part.IsFrame := by
  have hfits := fits_of_ofAddresses h
  obtain ⟨top, bottom, htop, hbottom, rfl⟩ := ofAddresses_eq_ok.1 h
  refine enumerates_of_regions rfl hfits ⟨?_, ?_⟩
  · exact Region.populated_of_ofAddresses htop
  · exact Region.populated_of_ofAddresses hbottom

/-- **The walk over a built part is exact.**  From any list of addresses there is a part, and its
frames are those of the list and the lower minor frames of their columns.  Following the part from
its first frame comes to an end: it goes upwards through the addresses with clear reserved bits that
name a frame of a configurable block type, and through nothing else.  Each of them is followed by
the next of the walk, and an address that names no frame by none. -/
theorem walk_ofAddresses (idcode : Word) (addresses : List (FrameAddress f)) :
    ∃ part, Part.ofAddresses idcode addresses = .ok part ∧
      (∀ a, part.contains a ↔ ∃ x ∈ addresses, x.blockType = a.blockType ∧ x.half = a.half ∧
        x.row = a.row ∧ x.column = a.column ∧ a.minor ≤ x.minor) ∧
      (∀ limit, part.walk limit = part.addresses.take limit) ∧
      (part.addresses.Pairwise fun a b => a.raw < b.raw) ∧
      (∀ a, a ∈ part.addresses ↔ part.contains a ∧ ∃ b ∈ BlockType.configurable,
        ∃ half row column minor, a = FrameAddress.pack f b half row column minor) ∧
      (∀ (i : Nat) (hi : i < part.addresses.length),
        part.next? part.addresses[i] = part.addresses[i + 1]?) ∧
      ∀ a, ¬ part.contains a → part.next? a = none := by
  obtain ⟨part, hpart⟩ := exists_ofAddresses idcode addresses
  have henumerates := enumerates_of_ofAddresses hpart
  obtain ⟨-, hwalks, hascending⟩ := henumerates.climbs.walks_addresses
  refine ⟨part, hpart, contains_of_ofAddresses hpart, henumerates.climbs.walk_eq_take, ?_, ?_, ?_,
    fun _ => next?_eq_none_of_not_contains⟩
  · exact hascending.imp FrameAddress.compare_eq_lt.1
  · intro a
    rw [henumerates.mem_addresses_iff, isFrame_iff]
  · intro i hi
    have hne : part.addresses ≠ [] := List.ne_nil_of_length_pos (Nat.zero_lt_of_lt hi)
    exact (hwalks hne).next?_getElem i hi

end Part
end FpgaBitstream
