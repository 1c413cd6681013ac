import FpgaBitstream.Proofs.GeometryReordering
import FpgaBitstream.Proofs.Layouts

/-!
# Parts built from ranges

Ranges of raw addresses build a part if no two of them overlap (`exists_ofRanges_iff`).  That is
checked between neighbours only, once empty ranges are left out and the rest is put in the order of
the starts: of ranges with an address each, one that reaches behind its neighbour's start overlaps
with the neighbour, and one that does not ends before all ranges behind (`follow_iff_apart`).

What is built depends on the addresses in the ranges and not on their order
(`ofBounds_eq_of_perm`).  The part holds the union of the ranges and goes on, from each address of
it, with the lowest address behind; as no range ends above the highest raw value, there always is a
raw value behind an address to go on with (`AddressRange.raw_lt_of_contains`).
-/

namespace FpgaBitstream

variable {f : Family} {bounds bounds' : List (Word × Word)}

/-! ## Bounds with an address between them -/

/-- The pairs of bounds that have an address between them. -/
def occupied (bounds : List (Word × Word)) : List (Word × Word) :=
  bounds.filter fun b => b.1 < b.2

/-- No raw address lies between two of the pairs of bounds. -/
def Apart (bounds : List (Word × Word)) : Prop :=
  bounds.Pairwise fun b c => ∀ raw, ¬ (InBounds b raw ∧ InBounds c raw)

theorem mem_occupied_iff {b : Word × Word} : b ∈ occupied bounds ↔ b ∈ bounds ∧ b.1 < b.2 := by
  simp [occupied]

theorem InBounds.lt {b : Word × Word} {raw : Word} (h : InBounds b raw) : b.1 < b.2 :=
  Nat.lt_of_le_of_lt h.1 h.2

/-- Bounds without an address between them overlap with nothing. -/
theorem apart_occupied_iff : Apart (occupied bounds) ↔ Apart bounds := by
  unfold Apart occupied
  rw [List.pairwise_filter]
  constructor
  · intro h
    refine h.imp fun {b c} hbc raw hraw => ?_
    exact hbc (decide_eq_true hraw.1.lt) (decide_eq_true hraw.2.lt) raw hraw
  · intro h
    exact h.imp fun hbc _ _ => hbc

theorem Apart.perm (h : Apart bounds) (hperm : bounds.Perm bounds') : Apart bounds' :=
  (hperm.pairwise_iff fun hbc raw hraw => hbc raw hraw.symm).1 h

/-- In the order of their starts bounds do not overlap exactly when each pair ends before the
next. -/
theorem follow_iff_apart (hoccupied : ∀ b ∈ bounds, b.1 < b.2)
    (hsorted : bounds.Pairwise fun b c => b.1 ≤ c.1) :
    (bounds.Pairwise fun b c => b.2 ≤ c.1) ↔ Apart bounds := by
  constructor
  · intro h
    refine h.imp fun hbc raw hraw => ?_
    obtain ⟨⟨-, hb⟩, hc, -⟩ := hraw
    bv_omega
  · intro h
    refine (hsorted.and h).imp_of_mem fun {b c} _ hc hbc => ?_
    obtain ⟨hstart, hapart⟩ := hbc
    rw [← BitVec.not_lt]
    intro hreaches
    -- the start of the second pair would lie between both
    exact hapart c.1 ⟨⟨hstart, hreaches⟩, BitVec.le_refl _, hoccupied c hc⟩

/-- **Comparing neighbours is enough.** -/
theorem firstOverlap?_sortBounds_eq_none_iff :
    firstOverlap? (sortBounds (occupied bounds)) = none ↔ Apart (occupied bounds) := by
  have hsorted := sortBounds_sorted (occupied bounds)
  have hperm := sortBounds_perm (occupied bounds)
  rw [firstOverlap?_eq_none_iff hsorted, follow_iff_apart ?_ hsorted]
  · exact ⟨fun h => h.perm hperm, fun h => h.perm hperm.symm⟩
  · intro b hb
    exact (mem_occupied_iff.1 (hperm.mem_iff.1 hb)).2

/-! ## Ranges -/

namespace AddressRange

/-- Behind an address of a range there is another raw value. -/
theorem raw_lt_of_contains {range : AddressRange} {raw : Word} (h : range.contains raw) :
    raw.toNat + 1 < 2 ^ 32 := by
  have hstop : raw < range.stop := (contains_iff.1 h).2
  have hlt := range.stop.isLt
  bv_omega

end AddressRange

namespace AddressRanges

/-- Ranges are built of the bounds that have an address between them. -/
theorem filterMap_occupied (bounds : List (Word × Word)) :
    (occupied bounds).filterMap (fun b => AddressRange.ofBounds? b.1 b.2) =
      bounds.filterMap fun b => AddressRange.ofBounds? b.1 b.2 := by
  unfold occupied
  rw [List.filterMap_filter]
  refine List.filterMap_congr fun b _ => ?_
  by_cases hlt : b.1 < b.2
  · simp [hlt]
  · simp [hlt, AddressRange.ofBounds?]

theorem toList_perm_of_ofBounds {ranges : AddressRanges} (h : ofBounds bounds = .ok ranges) :
    ranges.toList.Perm (bounds.filterMap fun b => AddressRange.ofBounds? b.1 b.2) := by
  unfold ofBounds at h
  simp only at h
  split at h
  case isFalse => cases h
  case isTrue hfollow =>
    obtain rfl := Except.ok.inj h
    exact List.mergeSort_perm _ _

theorem apart_of_ofBounds {ranges : AddressRanges} (h : ofBounds bounds = .ok ranges) :
    Apart bounds := by
  have hsorted : ranges.toList.Pairwise fun a b => ∀ raw, ¬ (a.contains raw ∧ b.contains raw) := by
    refine ranges.ascending.imp fun hab raw hraw => ?_
    simp only [AddressRange.contains_iff] at hraw
    bv_omega
  have hapart := (toList_perm_of_ofBounds h).pairwise_iff (fun hab raw hraw => hab raw hraw.symm)
    |>.1 hsorted
  refine (List.pairwise_filterMap.1 hapart).imp fun {b c} hbc raw hraw => ?_
  have hb := hraw.1.lt
  have hc := hraw.2.lt
  apply hbc ⟨b.1, b.2, hb⟩ (dif_pos hb) ⟨c.1, c.2, hc⟩ (dif_pos hc) raw
  simpa only [AddressRange.contains_iff, InBounds] using hraw

/-- **Bounds build ranges** exactly when they do not overlap. -/
theorem exists_ofBounds_iff : (∃ ranges, ofBounds bounds = .ok ranges) ↔ Apart bounds := by
  constructor
  · rintro ⟨ranges, h⟩
    exact apart_of_ofBounds h
  · intro h
    obtain ⟨ranges, hranges, -⟩ := exists_ofBounds h
    exact ⟨ranges, hranges⟩

theorem ofBounds_eq_error (h : ¬ Apart bounds) : ofBounds bounds = .error .overlappingRanges := by
  unfold ofBounds
  simp only
  split
  case isTrue hfollow => exact absurd (apart_of_ofBounds (dif_pos hfollow)) h
  case isFalse => rfl

/-- **What is built** is the same for the same bounds in another order, with or without bounds that
have no address between them. -/
theorem ofBounds_eq_of_perm (hperm : (occupied bounds).Perm (occupied bounds')) :
    ofBounds bounds' = ofBounds bounds := by
  by_cases h : Apart bounds
  · have h' : Apart bounds' := by
      rw [← apart_occupied_iff] at h ⊢
      exact h.perm hperm
    obtain ⟨ranges, hranges⟩ := exists_ofBounds_iff.2 h
    obtain ⟨ranges', hranges'⟩ := exists_ofBounds_iff.2 h'
    have hsame : ranges'.toList.Perm ranges.toList := by
      refine (toList_perm_of_ofBounds hranges').trans (List.Perm.trans ?_
        (toList_perm_of_ofBounds hranges).symm)
      rw [← filterMap_occupied bounds, ← filterMap_occupied bounds']
      exact hperm.symm.filterMap _
    rw [hranges, hranges', eq_of_perm hsame]
  · have h' : ¬ Apart bounds' := by
      rw [← apart_occupied_iff] at h ⊢
      exact fun h' => h (h'.perm hperm.symm)
    rw [ofBounds_eq_error h, ofBounds_eq_error h']

end AddressRanges

/-! ## Parts -/

namespace Part

variable {part : Part f} {idcode : Word}

theorem ofRanges_eq_ok : Part.ofRanges idcode bounds = .ok part ↔
    ∃ ranges, AddressRanges.ofBounds bounds = .ok ranges ∧ part = ⟨idcode, .ranges ranges⟩ := by
  simp only [ofRanges, bind_eq_ok]
  refine exists_congr fun ranges => and_congr_right fun _ => ?_
  exact ⟨fun h => (Except.ok.inj h).symm, fun h => congrArg Except.ok h.symm⟩

theorem exists_ofRanges_iff :
    (∃ part : Part f, Part.ofRanges idcode bounds = .ok part) ↔ Apart (occupied bounds) := by
  rw [apart_occupied_iff, ← AddressRanges.exists_ofBounds_iff]
  constructor
  · rintro ⟨part, h⟩
    obtain ⟨ranges, hranges, -⟩ := ofRanges_eq_ok.1 h
    exact ⟨ranges, hranges⟩
  · rintro ⟨ranges, hranges⟩
    exact ⟨_, ofRanges_eq_ok.2 ⟨ranges, hranges, rfl⟩⟩

section Built
variable (h : Part.ofRanges idcode bounds = .ok part)
include h

/-- **A part of ranges holds** their union. -/
theorem contains_of_ofRanges (a : FrameAddress f) :
    part.contains a ↔ ∃ b ∈ bounds, InBounds b a.raw := by
  obtain ⟨ranges, hranges, rfl⟩ := ofRanges_eq_ok.1 h
  have hapart := AddressRanges.apart_of_ofBounds hranges
  obtain ⟨ranges', hranges', hcontains⟩ := AddressRanges.exists_ofBounds hapart
  obtain rfl := Except.ok.inj (hranges.symm.trans hranges')
  exact hcontains a.raw

theorem enumerates_of_ofRanges : part.Enumerates fun a => part.contains a := by
  obtain ⟨ranges, -, rfl⟩ := ofRanges_eq_ok.1 h
  exact enumerates_of_ranges rfl

theorem raw_lt_of_ofRanges {a : FrameAddress f} (ha : part.contains a) :
    a.raw.toNat + 1 < 2 ^ 32 := by
  obtain ⟨ranges, -, rfl⟩ := ofRanges_eq_ok.1 h
  obtain ⟨range, -, hrange⟩ := List.any_eq_true.1 ha
  exact AddressRange.raw_lt_of_contains hrange

end Built

/-- **A part of ranges is their union.**  Ranges build a part exactly when no two of those with an
address overlap, for which it is enough to compare neighbours in the order of the starts.  The walk
over the part goes upwards through the union of the ranges and then ends.  Each address of the union
is followed by the lowest one behind it, if there is one, and has a raw value behind it; all other
addresses are followed by none.  Another order of the ranges, or other ranges without an address,
make no difference. -/
theorem walk_ofRanges (idcode : Word) (bounds : List (Word × Word)) :
    ((∃ part : Part f, Part.ofRanges idcode bounds = .ok part) ↔ Apart (occupied bounds)) ∧
    ((∃ part : Part f, Part.ofRanges idcode bounds = .ok part) ↔
      firstOverlap? (sortBounds (occupied bounds)) = none) ∧
    (∀ part : Part f, Part.ofRanges idcode bounds = .ok part →
      (∀ a, part.contains a ↔ ∃ b ∈ bounds, InBounds b a.raw) ∧
      (∀ limit, part.walk limit = part.addresses.take limit) ∧
      (part.addresses.Pairwise fun a b => a.raw < b.raw) ∧
      (∀ a, a ∈ part.addresses ↔ ∃ b ∈ bounds, InBounds b a.raw) ∧
      (∀ a, part.contains a → a.raw.toNat + 1 < 2 ^ 32 ∧
        IsFirst (fun x => part.contains x ∧ a.raw < x.raw) (part.next? a)) ∧
      ∀ a, ¬ part.contains a → part.next? a = none) ∧
    ∀ bounds', (occupied bounds).Perm (occupied bounds') →
      (Part.ofRanges idcode bounds' : Except TopologyError (Part f)) =
        Part.ofRanges idcode bounds := by
  refine ⟨exists_ofRanges_iff, ?_, ?_, ?_⟩
  · rw [exists_ofRanges_iff, firstOverlap?_sortBounds_eq_none_iff]
  · intro part h
    have henumerates := enumerates_of_ofRanges h
    obtain ⟨-, -, hascending⟩ := henumerates.climbs.walks_addresses
    refine ⟨contains_of_ofRanges h, henumerates.climbs.walk_eq_take,
      hascending.imp FrameAddress.compare_eq_lt.1, ?_, ?_, ?_⟩
    · intro a
      rw [henumerates.mem_addresses_iff, contains_of_ofRanges h]
    · intro a ha
      exact ⟨raw_lt_of_ofRanges h ha, henumerates.next a ha⟩
    · intro a ha
      exact next?_eq_none_of_not_contains ha
  · intro bounds' hperm
    rw [ofRanges, AddressRanges.ofBounds_eq_of_perm hperm, ofRanges]

/-- Touching ranges, ranges at both ends of the address space, and one without an address that lies
inside another. -/
def wholeSpace : List (Word × Word) :=
  [(0x100, 0x102), (0xFFFFFFFE, 0xFFFFFFFF), (0, 2), (0x101, 0x101), (2, 4)]

theorem walk_ofRanges_wholeSpace :
    ∃ part : Part .series7, Part.ofRanges 1 wholeSpace = .ok part ∧
      part.contains ⟨0xFFFFFFFE⟩ ∧ part.next? ⟨0xFFFFFFFE⟩ = none ∧
      Part.ofRanges 1 (occupied wholeSpace).reverse = .ok part := by
  obtain ⟨hbuilt, -, hpart, hperm⟩ := walk_ofRanges (f := .series7) 1 wholeSpace
  have hapart : (occupied wholeSpace).Pairwise fun b c => b.2 ≤ c.1 ∨ c.2 ≤ b.1 := by decide
  obtain ⟨part, h⟩ := hbuilt.2 <| hapart.imp fun hbc raw hraw => by
    obtain ⟨⟨hb, hb'⟩, hc, hc'⟩ := hraw
    bv_omega
  obtain ⟨hcontains, -, -, -, hnext, -⟩ := hpart part h
  have hlast : part.contains ⟨0xFFFFFFFE⟩ :=
    (hcontains _).2 ⟨(0xFFFFFFFE, 0xFFFFFFFF), by decide, by decide, by decide⟩
  have hreverse := hperm (occupied wholeSpace).reverse (by decide)
  refine ⟨part, h, hlast, ?_, hreverse.trans h⟩
  have hfirst := (hnext _ hlast).2
  cases hsome : part.next? ⟨0xFFFFFFFE⟩ with
  | none => rfl
  | some b =>
    rw [hsome] at hfirst
    obtain ⟨⟨hb, hgt⟩, -⟩ := hfirst
    have hlt := (hnext b hb).1
    bv_omega

end Part
end FpgaBitstream
