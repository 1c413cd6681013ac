import FpgaBitstream.Proofs.WellFormedGeometry
import Mathlib.Data.List.Perm.Basic

/-!
# Reordered geometries

The order in which a geometry lists its rows, buses, columns and ranges.  A tree stands for the same
part in whatever order it is written down (`RegionGeometry.Reorders.standsFor_iff`).  Ranges are put
in the order of their starts before they are compared, and of two that start alike the one that is
listed first stays first.  So the order matters where an empty range begins with another one: it is
accepted in front of that range and refused behind it (`PartGeometry.toPart_reorders`).
-/

namespace FpgaBitstream

variable {f : Family}

/-! ## Lists in another order -/

/-- The second list is the first one in some order, with related elements in place of its own. -/
def PermUpTo {α : Type} (R : α → α → Prop) (xs ys : List α) : Prop :=
  ∃ zs, xs.Perm zs ∧ List.Forall₂ R zs ys

namespace PermUpTo
variable {α κ : Type} {R : α → α → Prop} {xs ys : List α} (h : PermUpTo R xs ys)
include h

/-- A field that related elements have in common is put in another order. -/
theorem map_perm (field : α → κ) (hfield : ∀ {x y}, R x y → field x = field y) :
    (xs.map field).Perm (ys.map field) := by
  obtain ⟨zs, hperm, hrel⟩ := h
  have hmap : zs.map field = ys.map field := by
    clear hperm
    induction hrel with
    | nil => rfl
    | cons hxy _ ih => rw [List.map_cons, List.map_cons, hfield hxy, ih]
  rw [← hmap]
  exact hperm.map field

theorem eq_nil_iff : xs = [] ↔ ys = [] := by
  have hlength := (h.map_perm (fun _ => ()) fun _ => rfl).length_eq
  rw [List.length_map, List.length_map] at hlength
  rw [← List.length_eq_zero_iff, ← List.length_eq_zero_iff, hlength]

theorem forall_iff {p : α → Prop} (hp : ∀ {x y}, R x y → (p x ↔ p y)) :
    (∀ x ∈ xs, p x) ↔ ∀ y ∈ ys, p y := by
  have hperm := h.map_perm p fun hxy => propext (hp hxy)
  calc
    (∀ x ∈ xs, p x) ↔ ∀ q ∈ xs.map p, q := (List.forall_mem_map (P := id)).symm
    _ ↔ ∀ q ∈ ys.map p, q := by simp only [hperm.mem_iff]
    _ ↔ ∀ y ∈ ys, p y := List.forall_mem_map (P := id)

theorem exists_iff {p : α → Prop} (hp : ∀ {x y}, R x y → (p x ↔ p y)) :
    (∃ x ∈ xs, p x) ↔ ∃ y ∈ ys, p y := by
  have hnot := h.forall_iff (p := fun x => ¬ p x) fun hxy => not_congr (hp hxy)
  simpa only [not_forall, not_not, exists_prop] using not_congr hnot

end PermUpTo

/-! ## Trees in another order -/

/-- The columns stand in another order. -/
structure BusGeometry.Reorders (g g' : BusGeometry) : Prop where
  blockType : g.blockType = g'.blockType
  columns : g.columns.Perm g'.columns

/-- The buses stand in another order, or the columns of one do. -/
structure RowGeometry.Reorders (g g' : RowGeometry) : Prop where
  row : g.row = g'.row
  buses : PermUpTo BusGeometry.Reorders g.buses g'.buses

/-- The rows of a half stand in another order, or the buses of one do, or the columns. -/
def RegionGeometry.Reorders (g g' : RegionGeometry) : Prop :=
  ∀ half, PermUpTo RowGeometry.Reorders (g.rows half) (g'.rows half)

namespace BusGeometry.Reorders
variable {g g' : BusGeometry} (h : g.Reorders g')
include h

theorem wellFormed_iff : g.WellFormed ↔ g'.WellFormed := by
  have hnil : g.columns = [] ↔ g'.columns = [] := by
    rw [← List.length_eq_zero_iff, h.columns.length_eq, List.length_eq_zero_iff]
  simp only [BusGeometry.wellFormed_iff, Ne, hnil,
    (h.columns.map ColumnGeometry.column).nodup_iff, h.columns.mem_iff]

theorem standsFor_iff {bus : Bus} : g.StandsFor bus ↔ g'.StandsFor bus := by
  simp only [StandsFor, h.columns.mem_iff]

end BusGeometry.Reorders

namespace RowGeometry.Reorders
variable {g g' : RowGeometry} (h : g.Reorders g')
include h

theorem wellFormed_iff : g.WellFormed ↔ g'.WellFormed := by
  rw [RowGeometry.wellFormed_iff, RowGeometry.wellFormed_iff, Ne, h.buses.eq_nil_iff,
    (h.buses.map_perm BusGeometry.blockType (·.blockType)).nodup_iff,
    h.buses.forall_iff (·.wellFormed_iff)]

theorem standsFor_iff {row : Row} : g.StandsFor row ↔ g'.StandsFor row := by
  refine forall_congr' fun blockType => forall_congr' fun bus => iff_congr Iff.rfl ?_
  refine h.buses.exists_iff fun hbus => ?_
  rw [hbus.blockType, hbus.standsFor_iff]

end RowGeometry.Reorders

namespace RegionGeometry.Reorders
variable {g g' : RegionGeometry} (h : g.Reorders g')
include h

theorem wellFormed_iff : g.WellFormed ↔ g'.WellFormed := by
  have hnil (half : Half) : g.rows half = [] ↔ g'.rows half = [] := (h half).eq_nil_iff
  have hnodup (half : Half) :
      ((g.rows half).map (·.row)).Nodup ↔ ((g'.rows half).map (·.row)).Nodup :=
    ((h half).map_perm RowGeometry.row (·.row)).nodup_iff
  have hrows (half : Half) :
      (∀ row ∈ g.rows half, row.WellFormed) ↔ ∀ row ∈ g'.rows half, row.WellFormed :=
    (h half).forall_iff (·.wellFormed_iff)
  simp only [RegionGeometry.wellFormed_iff, Ne, hnil, hnodup, hrows]

theorem standsFor_iff {layout : Layout} : g.StandsFor layout ↔ g'.StandsFor layout := by
  have hrows (half : Half) (region : Region) :
      region.HasRows (g.rows half) ↔ region.HasRows (g'.rows half) := by
    refine forall_congr' fun number => forall_congr' fun row => iff_congr Iff.rfl ?_
    refine (h half).exists_iff fun hrow => ?_
    rw [hrow.row, hrow.standsFor_iff]
  have htop (region : Region) : region.HasRows g.top ↔ region.HasRows g'.top := hrows .top region
  have hbottom (region : Region) : region.HasRows g.bottom ↔ region.HasRows g'.bottom :=
    hrows .bottom region
  simp only [StandsFor, htop, hbottom]

end RegionGeometry.Reorders

/-! ## Ranges in another order -/

theorem exists_listMapM_of_perm {α β ε : Type} {change : α → Except ε β} {xs xs' : List α}
    {ys : List β} (hperm : xs.Perm xs') (h : xs.mapM change = .ok ys) :
    ∃ ys', xs'.mapM change = .ok ys' ∧ ys.Perm ys' := by
  obtain ⟨ys', hys', hperm'⟩ := List.perm_comp_forall₂ hperm.symm (listMapM_eq_ok_iff.1 h)
  exact ⟨ys', listMapM_eq_ok_iff.2 hys', hperm'.symm⟩

theorem sortBounds_perm (bounds : List (Word × Word)) : (sortBounds bounds).Perm bounds :=
  List.mergeSort_perm _ _

/-- Among ranges of which each ends before the next there is only one order. -/
theorem AddressRanges.eq_of_perm {a b : AddressRanges} (h : a.toList.Perm b.toList) : a = b := by
  refine ext_toList (h.eq_of_pairwise (fun r s _ _ hrs hsr => ?_) a.ascending b.ascending)
  have hr := r.start_lt_stop
  have hs := s.start_lt_stop
  bv_omega

/-- Built from the same bounds in another order, the ranges are the same. -/
theorem AddressRanges.ofSorted_eq_of_perm {bounds bounds' : List (Word × Word)}
    (hperm : bounds.Perm bounds') (hfollow : (sortBounds bounds).Pairwise fun a b => a.2 ≤ b.1)
    (hfollow' : (sortBounds bounds').Pairwise fun a b => a.2 ≤ b.1) :
    ofSorted (sortBounds bounds) hfollow = ofSorted (sortBounds bounds') hfollow' := by
  refine eq_of_perm (List.Perm.filterMap _ ?_)
  exact (sortBounds_perm bounds).trans (hperm.trans (sortBounds_perm bounds').symm)

/-- A range that begins where an empty one does is empty as well. -/
def PartGeometry.ClearStarts (g : PartGeometry) : Prop :=
  ∀ empty ∈ g.ranges, ∀ range ∈ g.ranges, ∀ start stop,
    empty.bounds = .ok (start, start) → range.bounds = .ok (start, stop) → stop = start

/-- Put in the order of their starts, ranges that follow one another in one order do so in each. -/
theorem follow_of_perm {bounds bounds' : List (Word × Word)} (hperm : bounds.Perm bounds')
    (hle : ∀ a ∈ bounds, a.1 ≤ a.2)
    (hclear : ∀ a ∈ bounds, ∀ b ∈ bounds, a.1 = a.2 → b.1 = a.1 → b.2 = b.1)
    (hfollow : (sortBounds bounds).Pairwise fun a b => a.2 ≤ b.1) :
    (sortBounds bounds').Pairwise fun a b => a.2 ≤ b.1 := by
  have hsort : (sortBounds bounds).Perm (sortBounds bounds') :=
    (sortBounds_perm bounds).trans (hperm.trans (sortBounds_perm bounds').symm)
  have hmem {a : Word × Word} : a ∈ sortBounds bounds' → a ∈ bounds := fun ha =>
    hperm.mem_iff.2 ((sortBounds_perm bounds').mem_iff.1 ha)
  -- that one of the two ends before the other begins does not depend on the order
  have hapart : (sortBounds bounds').Pairwise fun a b => a.2 ≤ b.1 ∨ b.2 ≤ a.1 :=
    (hsort.pairwise_iff Or.symm).1 (hfollow.imp Or.inl)
  refine ((sortBounds_sorted bounds').and hapart).imp_of_mem fun {a b} ha hb hab => ?_
  obtain ⟨hstarts, hbefore | hbehind⟩ := hab
  · exact hbefore
  · have hab := hclear b (hmem hb) a (hmem ha)
    have hb := hle b (hmem hb)
    have hempty : b.1 = b.2 := by bv_omega
    have hstart : a.1 = b.1 := by bv_omega
    rw [hab hempty hstart, hstart]
    exact BitVec.le_refl _

theorem AddressRanges.ofGeometry_of_reorders {g g' : PartGeometry} {built : AddressRanges}
    (hperm : g.ranges.Perm g'.ranges) (hclear : g.ClearStarts)
    (h : AddressRanges.ofGeometry g.ranges = .ok built) :
    AddressRanges.ofGeometry g'.ranges = .ok built := by
  obtain ⟨bounds, hbounds, hfollow, rfl⟩ := ofGeometry_eq_ok_iff.1 h
  obtain ⟨bounds', hbounds', hboundsPerm⟩ := exists_listMapM_of_perm hperm hbounds
  have hclearBounds : ∀ a ∈ bounds, ∀ b ∈ bounds, a.1 = a.2 → b.1 = a.1 → b.2 = b.1 := by
    rintro ⟨start, stop⟩ ha ⟨start', stop'⟩ hb hempty hstart
    obtain rfl : start = stop := hempty
    obtain rfl : start' = start := hstart
    obtain ⟨empty, hin, hparsed⟩ := (mem_of_listMapM hbounds _).1 ha
    obtain ⟨range, hin', hparsed'⟩ := (mem_of_listMapM hbounds _).1 hb
    exact hclear empty hin range hin' _ _ hparsed hparsed'
  have hfollow' := follow_of_perm hboundsPerm (RangeGeometry.le_of_mapM_bounds hbounds)
    hclearBounds hfollow
  exact ofGeometry_eq_ok_iff.2
    ⟨bounds', hbounds', hfollow', ofSorted_eq_of_perm hboundsPerm hfollow hfollow'⟩

/-! ## Geometries in another order -/

/-- The rows of a half, the buses of a row, the columns of a bus or the ranges stand in another
order. -/
structure PartGeometry.Reorders (g g' : PartGeometry) : Prop where
  idcode : g.idcode = g'.idcode
  family : g.family = g'.family
  regions : Option.Rel RegionGeometry.Reorders g.regions g'.regions
  ranges : g.ranges.Perm g'.ranges

namespace PartGeometry
variable {g g' : PartGeometry} {part part' : Part f}

namespace Reorders
variable (h : g.Reorders g')
include h

theorem ranges_eq_nil_iff : g.ranges = [] ↔ g'.ranges = [] := by
  rw [← List.length_eq_zero_iff, h.ranges.length_eq, List.length_eq_zero_iff]

theorem clearStarts (hclear : g.ClearStarts) : g'.ClearStarts := fun empty hempty range hrange =>
  hclear empty (h.ranges.mem_iff.2 hempty) range (h.ranges.mem_iff.2 hrange)

theorem regions_cases :
    (∃ regions regions', g.regions = some regions ∧ g'.regions = some regions' ∧
      regions.Reorders regions') ∨ g.regions = none ∧ g'.regions = none := by
  have hrel := h.regions
  generalize g.regions = regions, g'.regions = regions' at hrel
  cases hrel with
  | some hrel => exact .inl ⟨_, _, rfl, rfl, hrel⟩
  | none => exact .inr ⟨rfl, rfl⟩

/-- **The order does not matter** unless a range begins with an empty one. -/
theorem toPart_iff (hclear : g.ClearStarts) : g.toPart f = .ok part ↔ g'.toPart f = .ok part := by
  rcases h.regions_cases with
    ⟨regions, regions', hregions, hregions', hrel⟩ | ⟨hregions, hregions'⟩
  · have hbottom : regions.bottom = [] ↔ regions'.bottom = [] := (hrel .bottom).eq_nil_iff
    rw [toPart_eq_ok_iff_of_regions hregions, toPart_eq_ok_iff_of_regions hregions', h.family,
      h.idcode, h.ranges_eq_nil_iff, hbottom, hrel.wellFormed_iff, hrel.standsFor_iff]
  · have hbuilt (built : AddressRanges) : AddressRanges.ofGeometry g.ranges = .ok built ↔
        AddressRanges.ofGeometry g'.ranges = .ok built :=
      ⟨AddressRanges.ofGeometry_of_reorders h.ranges hclear,
        AddressRanges.ofGeometry_of_reorders h.ranges.symm (h.clearStarts hclear)⟩
    simp only [toPart_eq_ok_iff_of_ranges hregions, toPart_eq_ok_iff_of_ranges hregions',
      h.family, h.idcode, Ne, h.ranges_eq_nil_iff, hbuilt]

/-- **Two orders that are accepted make the same part.** -/
theorem toPart_unique (hpart : g.toPart f = .ok part) (hpart' : g'.toPart f = .ok part') :
    part = part' := by
  rcases h.regions_cases with ⟨regions, -, hregions, -⟩ | ⟨hregions, hregions'⟩
  · obtain ⟨⟨-, -, hranges, -⟩, -⟩ := (toPart_eq_ok_iff_of_regions hregions).1 hpart
    have hclear : g.ClearStarts := by
      intro empty hempty
      rw [hranges] at hempty
      cases hempty
    exact Except.ok.inj (((h.toPart_iff hclear).1 hpart).symm.trans hpart')
  · obtain ⟨-, hidcode, -, ranges, hranges, hlayout⟩ :=
      (toPart_eq_ok_iff_of_ranges hregions).1 hpart
    obtain ⟨-, hidcode', -, ranges', hranges', hlayout'⟩ :=
      (toPart_eq_ok_iff_of_ranges hregions').1 hpart'
    obtain ⟨bounds, hbounds, hfollow, rfl⟩ := AddressRanges.ofGeometry_eq_ok_iff.1 hranges
    obtain ⟨bounds', hbounds', hfollow', rfl⟩ := AddressRanges.ofGeometry_eq_ok_iff.1 hranges'
    obtain ⟨_, hbounds'', hperm⟩ := exists_listMapM_of_perm h.ranges hbounds
    obtain rfl := Except.ok.inj (hbounds'.symm.trans hbounds'')
    rw [AddressRanges.ofSorted_eq_of_perm hperm hfollow hfollow', ← hlayout'] at hlayout
    rw [h.idcode, hidcode'] at hidcode
    cases part
    cases part'
    cases Except.ok.inj hidcode
    cases hlayout
    rfl

end Reorders

/-- A range that is listed in front of an empty one with the same start is refused. -/
theorem not_accepted_of_startsAlike {range empty : RangeGeometry} {rest : List RangeGeometry}
    {start stop : Word} (hranges : g.ranges = range :: empty :: rest)
    (hrange : range.bounds = .ok (start, stop)) (hempty : empty.bounds = .ok (start, start))
    (hlt : start < stop) : ¬ g.toPart f = .ok part := by
  intro hpart
  cases hregions : g.regions with
  | some regions =>
    obtain ⟨⟨-, -, hnil, -⟩, -⟩ := (toPart_eq_ok_iff_of_regions hregions).1 hpart
    rw [hranges] at hnil
    cases hnil
  | none =>
    obtain ⟨-, -, -, built, hbuilt, -⟩ := (toPart_eq_ok_iff_of_ranges hregions).1 hpart
    obtain ⟨bounds, hbounds, hfollow, -⟩ := AddressRanges.ofGeometry_eq_ok_iff.1 hbuilt
    rw [hranges, listMapM_eq_ok_iff] at hbounds
    obtain _ | ⟨hfirst, _ | @⟨_, _, _, others, hsecond, -⟩⟩ := hbounds
    obtain rfl := Except.ok.inj (hrange.symm.trans hfirst)
    obtain rfl := Except.ok.inj (hempty.symm.trans hsecond)
    -- the sort is stable, so the two keep their order
    have hsublist := List.pair_sublist_mergeSort startsNoLater_trans startsNoLater_total
      (decide_eq_true (BitVec.le_refl start))
      (((List.nil_sublist others).cons_cons (start, start)).cons_cons (start, stop))
    have hstop : stop ≤ start := List.rel_of_pairwise_cons (hfollow.sublist hsublist)
      List.mem_cons_self
    exact BitVec.not_lt.2 hstop hlt

/-- **The order of a geometry.**  Two orders that are accepted make the same part.  An order is
accepted if another is, unless a range begins with an empty one; then some order is refused. -/
theorem toPart_reorders (g : PartGeometry) :
    (∀ g', g.Reorders g' → ∀ part part' : Part f,
      g.toPart f = .ok part → g'.toPart f = .ok part' → part = part') ∧
    (g.ClearStarts → ∀ g', g.Reorders g' → ∀ part : Part f,
      g.toPart f = .ok part ↔ g'.toPart f = .ok part) ∧
    ∀ part : Part f, g.toPart f = .ok part →
      (∀ g', g.Reorders g' → g'.toPart f = .ok part) → g.ClearStarts := by
  refine ⟨fun g' h part part' => h.toPart_unique, fun hclear g' h part => h.toPart_iff hclear,
    fun part hpart hall empty hempty range hrange start stop hemptyBounds hrangeBounds => ?_⟩
  by_contra hne
  have hle := (RangeGeometry.bounds_eq_ok_iff.1 hrangeBounds).2.2
  have hlt : start < stop := BitVec.lt_of_le_ne hle fun hsame => hne hsame.symm
  have hdistinct : range ≠ empty := by
    rintro rfl
    rw [hrangeBounds] at hemptyBounds
    exact hne (Prod.mk.inj (Except.ok.inj hemptyBounds)).2
  have hregions : g.regions = none := by
    cases hregions : g.regions with
    | none => rfl
    | some regions =>
      obtain ⟨⟨-, -, hnil, -⟩, -⟩ := (toPart_eq_ok_iff_of_regions hregions).1 hpart
      rw [hnil] at hempty
      cases hempty
  -- the order with the other range in front of the empty one
  have hperm : g.ranges.Perm (range :: empty :: (g.ranges.erase range).erase empty) :=
    (List.perm_cons_erase hrange).trans
      ((List.perm_cons_erase ((List.mem_erase_of_ne hdistinct.symm).2 hempty)).cons range)
  have hreorders : g.Reorders
      { g with ranges := range :: empty :: (g.ranges.erase range).erase empty } := by
    refine ⟨rfl, rfl, ?_, hperm⟩
    rw [hregions]
    exact .none
  exact not_accepted_of_startsAlike rfl hrangeBounds hemptyBounds hlt (hall _ hreorders)

/-- Two ranges and an empty one, which stands where the first ends. -/
def touchingRanges : PartGeometry where
  idcode := "0x04001093"
  family := .spartan6
  ranges := [⟨"0x10", "0x18"⟩, ⟨"0x18", "0x18"⟩, ⟨"0x20", "0x30"⟩]

theorem toPart_reorders_touchingRanges :
    touchingRanges.ClearStarts ∧ ∃ part : Part .spartan6,
      touchingRanges.toPart .spartan6 = .ok part ∧
      { touchingRanges with ranges := touchingRanges.ranges.reverse }.toPart .spartan6 =
        .ok part := by
  have hbounds : touchingRanges.ranges.mapM (·.bounds) =
      .ok [(0x10, 0x18), (0x18, 0x18), (0x20, 0x30)] := eq_ok_of_toOption (by decide +kernel)
  have hclear : touchingRanges.ClearStarts := by
    have hall : ∀ a ∈ [((0x10 : Word), (0x18 : Word)), (0x18, 0x18), (0x20, 0x30)],
        ∀ b ∈ [((0x10 : Word), (0x18 : Word)), (0x18, 0x18), (0x20, 0x30)],
          a.1 = a.2 → b.1 = a.1 → b.2 = a.1 := by simp
    intro empty hempty range hrange start stop h h'
    exact hall _ ((mem_of_listMapM hbounds _).2 ⟨empty, hempty, h⟩) _
      ((mem_of_listMapM hbounds _).2 ⟨range, hrange, h'⟩) rfl rfl
  have hbuilt := AddressRanges.ofGeometry_of_follow hbounds (by decide)
  have hpart : touchingRanges.toPart .spartan6 = .ok ⟨0x04001093, .ranges _⟩ :=
    (toPart_eq_ok_iff_of_ranges rfl).2
      ⟨rfl, eq_ok_of_toOption (by decide +kernel), List.cons_ne_nil _ _, _, hbuilt, rfl⟩
  have hreorders : touchingRanges.Reorders
      { touchingRanges with ranges := touchingRanges.ranges.reverse } :=
    ⟨rfl, rfl, .none, (List.reverse_perm _).symm⟩
  exact ⟨hclear, _, hpart, ((toPart_reorders touchingRanges).2.1 hclear _ hreorders _).1 hpart⟩

/-- An empty range in front of one with the same start. -/
def emptyInFront : PartGeometry where
  idcode := "0x0362d093"
  family := .series7
  ranges := [⟨"0x10", "0x10"⟩, ⟨"0x10", "0x12"⟩]

/-- The two ranges in the other order. -/
def emptyBehind : PartGeometry where
  idcode := "0x0362d093"
  family := .series7
  ranges := [⟨"0x10", "0x12"⟩, ⟨"0x10", "0x10"⟩]

/-- **The order of the ranges is not always without effect.** -/
theorem not_forall_toPart_reorders :
    ¬ ∀ (f : Family) (g g' : PartGeometry), g.Reorders g' →
      ∀ part : Part f, g.toPart f = .ok part ↔ g'.toPart f = .ok part := by
  intro h
  have hempty : (⟨"0x10", "0x10"⟩ : RangeGeometry).bounds = .ok (0x10, 0x10) :=
    eq_ok_of_toOption (by decide +kernel)
  have hrange : (⟨"0x10", "0x12"⟩ : RangeGeometry).bounds = .ok (0x10, 0x12) :=
    eq_ok_of_toOption (by decide +kernel)
  have hbounds : emptyInFront.ranges.mapM (·.bounds) = .ok [(0x10, 0x10), (0x10, 0x12)] :=
    listMapM_eq_ok_iff.2 (.cons hempty (.cons hrange .nil))
  have hbuilt := AddressRanges.ofGeometry_of_follow hbounds (by decide)
  have hpart : emptyInFront.toPart .series7 = .ok ⟨0x0362d093, .ranges _⟩ :=
    (toPart_eq_ok_iff_of_ranges rfl).2
      ⟨rfl, eq_ok_of_toOption (by decide +kernel), List.cons_ne_nil _ _, _, hbuilt, rfl⟩
  have hreorders : emptyInFront.Reorders emptyBehind := ⟨rfl, rfl, .none, .swap ..⟩
  exact not_accepted_of_startsAlike rfl hrange hempty (by decide)
    ((h .series7 _ _ hreorders _).1 hpart)

end PartGeometry

end FpgaBitstream
