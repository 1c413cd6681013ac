import FpgaBitstream.Proofs.Enumeration
import FpgaBitstream.Proofs.ReplayInvariant

/-!
# One set of frames, two layouts

A part can be built from a list of frames or from ranges of raw addresses.  Where both describe the
same frames the two parts are interchangeable (`Part.layouts_agree`), although the one finds the
next address field by field, through five levels, and the other adds one to the raw value.  Either
way it is the lowest frame behind an address, of which there is only one (`IsFirst.unique`).

The rest follows from that alone: parts that enumerate one set have the same walk
(`Part.Enumerates.addresses_eq`), and parts that go on alike from the addresses of a set cut frames
into the same segments and replay packets to the same frames, as long as only addresses of the set
are loaded (`Part.AgreeOn`).
-/

namespace FpgaBitstream

variable {f : Family}

/-! ## Parts that enumerate one set -/

theorem IsFirst.unique {S : FrameAddress f → Prop} {m n : Option (FrameAddress f)}
    (hm : IsFirst S m) (hn : IsFirst S n) : m = n := by
  cases m with
  | none =>
    cases n with
    | none => rfl
    | some b => exact absurd hn.1 (hm b)
  | some a =>
    cases n with
    | none => exact absurd hm.1 (hn a)
    | some b =>
      have heq : a.raw = b.raw := BitVec.le_antisymm (hm.2 b hn.1) (hn.2 a hm.1)
      exact congrArg some (FrameAddress.eq_of_raw_eq heq)

namespace Part

theorem Enumerates.congr {part : Part f} {S T : FrameAddress f → Prop} (h : part.Enumerates S)
    (hiff : ∀ a, S a ↔ T a) : part.Enumerates T := by
  have heq : S = T := funext fun a => propext (hiff a)
  rwa [← heq]

section Enumerates
variable {part part' : Part f} {S : FrameAddress f → Prop} (h : part.Enumerates S)
  (h' : part'.Enumerates S)
include h h'

theorem Enumerates.first?_eq : part.first? = part'.first? := h.first.unique h'.first

theorem Enumerates.next?_eq {a : FrameAddress f} (ha : S a) : part.next? a = part'.next? a :=
  (h.next a ha).unique (h'.next a ha)

theorem Enumerates.climbOnto_eq (done : List (FrameAddress f)) {a : FrameAddress f} (ha : S a) :
    part'.climbOnto done a = part.climbOnto done a := by
  have hagree {a : FrameAddress f} (ha : S a) := h.next?_eq h' ha
  fun_induction climbOnto part done a with
  | case1 done a next hnext hlt ih =>
    rw [climbOnto, ← hagree ha, hnext]
    simp only [if_pos hlt]
    exact ih (h.of_next ha hnext).1.1
  | case2 done a next hnext hlt =>
    rw [climbOnto, ← hagree ha, hnext]
    simp only [if_neg hlt]
  | case3 done a hnext => rw [climbOnto, ← hagree ha, hnext]

/-- Parts that enumerate one set have the same walk. -/
theorem Enumerates.addresses_eq : part.addresses = part'.addresses := by
  unfold addresses
  rw [← h.first?_eq h']
  cases hfirst : part.first? with
  | none => rfl
  | some a => exact (h.climbOnto_eq h' [] (h.of_first hfirst).1).symm

theorem Enumerates.walk_eq (limit : Nat) : part.walk limit = part'.walk limit := by
  rw [h.climbs.walk_eq_take, h'.climbs.walk_eq_take, h.addresses_eq h']

end Enumerates

/-! ## Parts that go on alike -/

/-- Two parts of one device that go on alike from the addresses of a set, and stay in it. -/
structure AgreeOn (K : FrameAddress f → Prop) (part part' : Part f) : Prop where
  idcode : part.idcode = part'.idcode
  next? : ∀ a, K a → part.next? a = part'.next? a
  stays : ∀ a b, K a → part.next? a = some b → K b

end Part

theorem splitBy_congr {α : Type} {r r' : α → α → Bool} {elements : List α}
    (h : ∀ x ∈ elements, r x = r' x) : elements.splitBy r = elements.splitBy r' := by
  have hloop : ∀ (rest : List α) (x : α) (run : List α) (runs : List (List α)),
      (∀ y ∈ x :: rest, r y = r' y) →
        List.splitBy.loop r rest x run runs = List.splitBy.loop r' rest x run runs := by
    intro rest
    induction rest with
    | nil => exact fun _ _ _ _ => rfl
    | cons y rest ih =>
      intro x run runs h
      simp only [List.splitBy.loop, h x List.mem_cons_self]
      split
      · exact ih _ _ _ fun z hz => h z (List.mem_cons_of_mem _ hz)
      · exact ih _ _ _ fun z hz => h z (List.mem_cons_of_mem _ hz)
  cases elements with
  | nil => rfl
  | cons x rest => exact hloop rest x [] [] h

section AgreeOn
variable {K : FrameAddress f → Prop} {part part' : Part f} (h : Part.AgreeOn K part part')
include h

open Replay

/-- The segments of frames with addresses in the set are the same. -/
theorem Part.AgreeOn.segments {frames : Frames f} (hkeys : ∀ a ∈ frames.keys, K a) :
    frames.segments part = frames.segments part' := by
  have hsplit : (frames.toList.splitBy fun x y => Frames.continues part x.1 y.1) =
      frames.toList.splitBy fun x y => Frames.continues part' x.1 y.1 := by
    refine splitBy_congr fun x hx => funext fun y => ?_
    rw [Frames.continues, Frames.continues, h.next? x.1 (hkeys x.1 (List.mem_map_of_mem hx))]
  rw [Frames.segments, hsplit, Frames.segments]

theorem Part.AgreeOn.fill (words : List Word) {s : State f} (hcursor : K s.cursor) :
    s.fill part' words = s.fill part words := by
  fun_induction State.fill part words s with
  | case1 words s frame hshort => rw [State.fill, if_pos hshort]
  | case2 words s frame hlong s₁ hlast =>
    exact fill_of_last hlong ((h.next? _ hcursor).symm.trans hlast)
  | case3 words s frame hlong s₁ next hnext passed ih =>
    rw [fill_of_next hlong ((h.next? _ hcursor).symm.trans hnext)]
    exact ih (h.stays _ _ hcursor hnext)

/-- **One packet** has the same effect, with cursor and frame address in the set. -/
theorem Part.AgreeOn.step {s : State f} (hcursor : K s.cursor) (haddress : K s.frameAddress)
    (p : Packet f) : Replay.step part s p = Replay.step part' s p := by
  unfold Replay.step
  split
  case isFalse => rfl
  case isTrue =>
    cases p.register.role with
    | idcode => simp only [write, h.idcode]
    | frameDataInput =>
      have hbegin : K s.beginRun.cursor := by
        unfold State.beginRun
        split
        · exact haddress
        · exact hcursor
      exact congrArg some (h.fill p.data hbegin).symm
    | frameAddressMajor => rcases p.data with - | ⟨major, - | ⟨minor, rest⟩⟩ <;> rfl
    | _ => cases p.data <;> rfl

/-- **A whole run** has the same effect, if only addresses of the set are loaded. -/
theorem Part.AgreeOn.run {s : State f} (hs : Within K s) {packets : List (Packet f)}
    (hheld : ∀ a, Held part s packets a → K a) :
    Replay.run part s packets = Replay.run part' s packets := by
  induction packets generalizing s with
  | nil => rfl
  | cons p rest ih =>
    have haddress := hheld _ (.now s _)
    rw [run_cons, run_cons, ← h.step hs.cursor haddress]
    cases hstep : Replay.step part s p with
    | none => rfl
    | some s₁ =>
      exact ih (hs.step h.stays haddress hstep) fun a ha => hheld a (.later hstep ha)

theorem Part.AgreeOn.replay {packets : List (Packet f)}
    (hheld : ∀ a, Held part .initial packets a → K a) :
    replay part packets = replay part' packets := by
  -- the frame address register and the cursor start with the same value
  have hzero : K ⟨0⟩ := hheld _ (.now .initial packets)
  rw [FpgaBitstream.replay, h.run (Within.initial hzero) hheld, FpgaBitstream.replay]

end AgreeOn

/-! ## One set of frames -/

/-- A list of frames to which the configuration logic can walk, with all lower minor frames of their
columns. -/
structure FillsColumns (addresses : List (FrameAddress f)) : Prop where
  canonical : ∀ a ∈ addresses, a.Canonical
  blockType : ∀ a ∈ addresses, a.blockType ∈ BlockType.configurable
  minors : ∀ a ∈ addresses, ∀ minor < a.minor, a.withMinor minor ∈ addresses

/-- The raw address lies from the first bound on and below the second. -/
def InBounds (bounds : Word × Word) (raw : Word) : Prop := bounds.1 ≤ raw ∧ raw < bounds.2

/-- Pairs of bounds that have no address in common and together hold the given ones. -/
structure Partitions (bounds : List (Word × Word)) (addresses : List (FrameAddress f)) : Prop where
  disjoint : bounds.Pairwise fun b c => ∀ raw, ¬ (InBounds b raw ∧ InBounds c raw)
  mem_iff : ∀ a, a ∈ addresses ↔ ∃ b ∈ bounds, InBounds b a.raw

section FillsColumns
variable {addresses : List (FrameAddress f)} {idcode : Word} {part : Part f}

/-- The part that is built of frames with all lower minor frames holds just these. -/
theorem FillsColumns.contains_iff (h : FillsColumns addresses)
    (hpart : Part.ofAddresses idcode addresses = .ok part) {a : FrameAddress f}
    (ha : a.Canonical) : part.contains a ↔ a ∈ addresses := by
  rw [Part.contains_of_ofAddresses hpart]
  constructor
  · rintro ⟨x, hx, hblock, hhalf, hrow, hcolumn, hminor⟩
    rcases Nat.lt_or_eq_of_le hminor with hlt | heq
    · have hlower := h.minors x hx a.minor hlt
      rwa [FrameAddress.withMinor, hblock, hhalf, hrow, hcolumn, ← FrameAddress.eq_pack ha]
        at hlower
    · obtain rfl := FrameAddress.eq_of_fields ha (h.canonical x hx) hblock.symm hhalf.symm
        hrow.symm hcolumn.symm heq
      exact hx
  · intro hmem
    exact ⟨a, hmem, rfl, rfl, rfl, rfl, Nat.le_refl _⟩

theorem FillsColumns.enumerates (h : FillsColumns addresses)
    (hpart : Part.ofAddresses idcode addresses = .ok part) :
    part.Enumerates (· ∈ addresses) := by
  refine (Part.enumerates_of_ofAddresses hpart).congr fun a => ⟨fun ha => ?_, fun ha => ?_⟩
  · exact (h.contains_iff hpart ha.canonical).1 ha.contains
  · have hcanonical := h.canonical a ha
    exact ⟨hcanonical, h.blockType a ha, (h.contains_iff hpart hcanonical).2 ha⟩

end FillsColumns

/-! ### Ranges that do not overlap -/

namespace AddressRanges

/-- Sorted by their starts, ranges without a common address follow one another. -/
theorem ascending_mergeSort {ranges : List AddressRange}
    (h : ranges.Pairwise fun a b => ∀ raw, ¬ (a.contains raw ∧ b.contains raw)) :
    (ranges.mergeSort fun a b => a.start ≤ b.start).Pairwise fun a b => a.stop ≤ b.start := by
  have hperm := List.mergeSort_perm ranges fun a b => a.start ≤ b.start
  have hstarts : (ranges.mergeSort fun a b => a.start ≤ b.start).Pairwise
      fun a b => a.start ≤ b.start := by
    refine (List.pairwise_mergeSort (fun a b c hab hbc => ?_) (fun a b => ?_) ranges).imp
      of_decide_eq_true
    · exact decide_eq_true (BitVec.le_trans (of_decide_eq_true hab) (of_decide_eq_true hbc))
    · simp [BitVec.le_total]
  have hapart := (hperm.pairwise_iff fun h raw hboth => h raw hboth.symm).2 h
  refine (hstarts.and hapart).imp fun {a b} hab => BitVec.not_lt.1 fun hlt => ?_
  -- a range that starts inside the one before has its own start in common with it
  exact hab.2 b.start ⟨AddressRange.contains_iff.2 ⟨hab.1, hlt⟩,
    AddressRange.contains_iff.2 ⟨BitVec.le_refl _, b.start_lt_stop⟩⟩

/-- The range between two bounds holds what lies between them. -/
theorem contains_of_ofBounds? {bounds : Word × Word} {range : AddressRange}
    (h : AddressRange.ofBounds? bounds.1 bounds.2 = some range) (raw : Word) :
    range.contains raw ↔ InBounds bounds raw := by
  obtain ⟨hstart, hstop⟩ := AddressRange.eq_of_ofBounds? h
  rw [AddressRange.contains_iff, hstart, hstop, InBounds]

/-- **Bounds that do not overlap build ranges**, which hold what lies between the bounds. -/
theorem exists_ofBounds {bounds : List (Word × Word)}
    (h : bounds.Pairwise fun b c => ∀ raw, ¬ (InBounds b raw ∧ InBounds c raw)) :
    ∃ ranges, ofBounds bounds = .ok ranges ∧
      ∀ raw, ranges.contains raw ↔ ∃ b ∈ bounds, InBounds b raw := by
  let ranges := bounds.filterMap fun b => AddressRange.ofBounds? b.1 b.2
  have hapart : ranges.Pairwise fun a b => ∀ raw, ¬ (a.contains raw ∧ b.contains raw) := by
    refine List.pairwise_filterMap.2 (h.imp ?_)
    intro b c hbc range hrange range' hrange' raw hboth
    rw [contains_of_ofBounds? hrange, contains_of_ofBounds? hrange'] at hboth
    exact hbc raw hboth
  have hasc := ascending_mergeSort hapart
  refine ⟨⟨_, hasc⟩, dif_pos hasc, fun raw => ?_⟩
  simp only [contains, List.any_eq_true, List.mem_mergeSort]
  constructor
  · rintro ⟨range, hmem, hin⟩
    obtain ⟨b, hb, hrange⟩ := List.mem_filterMap.1 hmem
    exact ⟨b, hb, (contains_of_ofBounds? hrange raw).1 hin⟩
  · rintro ⟨b, hb, hin⟩
    have hlt : b.1 < b.2 := Nat.lt_of_le_of_lt hin.1 hin.2
    have hrange : AddressRange.ofBounds? b.1 b.2 = some ⟨b.1, b.2, hlt⟩ := dif_pos hlt
    exact ⟨_, List.mem_filterMap.2 ⟨b, hb, hrange⟩, (contains_of_ofBounds? hrange raw).2 hin⟩

end AddressRanges

/-- Ranges that partition a list of addresses build a part that enumerates the list. -/
theorem Partitions.exists_ofRanges {bounds : List (Word × Word)}
    {addresses : List (FrameAddress f)} (h : Partitions bounds addresses) (idcode : Word) :
    ∃ part : Part f, Part.ofRanges idcode bounds = .ok part ∧ part.idcode = idcode ∧
      (∀ a, part.contains a ↔ a ∈ addresses) ∧ part.Enumerates (· ∈ addresses) := by
  obtain ⟨ranges, hranges, hcontains⟩ := AddressRanges.exists_ofBounds h.disjoint
  let part : Part f := ⟨idcode, .ranges ranges⟩
  have hiff (a : FrameAddress f) : part.contains a ↔ a ∈ addresses :=
    (hcontains a.raw).trans (h.mem_iff a).symm
  have henumerates : part.Enumerates fun a => part.contains a := Part.enumerates_of_ranges rfl
  exact ⟨part, bind_eq_ok.2 ⟨ranges, hranges, rfl⟩, rfl, hiff, henumerates.congr hiff⟩

/-! ## The two layouts -/

namespace Part

/-- **The two layouts are interchangeable.**  Frames of configurable block types, each with the
lower minor frames of its column, build a part, and so do ranges that partition them.  The two parts
name the same frames and go on alike from each address with clear reserved bits, so they have the
same walk, lay frames out as the same payload and cut them into the same segments, and replay
packets to the same frames as long as no address with reserved bits is loaded. -/
theorem layouts_agree (idcode : Word) {addresses : List (FrameAddress f)}
    {bounds : List (Word × Word)} (haddresses : FillsColumns addresses)
    (hbounds : Partitions bounds addresses) :
    ∃ tree ranges : Part f,
      Part.ofAddresses idcode addresses = .ok tree ∧ Part.ofRanges idcode bounds = .ok ranges ∧
      (∀ a : FrameAddress f, a.Canonical →
        tree.contains a = ranges.contains a ∧ tree.next? a = ranges.next? a) ∧
      tree.first? = ranges.first? ∧ (∀ limit, tree.walk limit = ranges.walk limit) ∧
      tree.addresses = ranges.addresses ∧
      (∀ frames : Frames f, frames.assemblePayload tree = frames.assemblePayload ranges) ∧
      (∀ frames : Frames f, (∀ a ∈ frames.keys, a.Canonical) →
        frames.segments tree = frames.segments ranges) ∧
      ∀ packets, (∀ a, Replay.Held tree .initial packets a → a.Canonical) →
        replay tree packets = replay ranges packets := by
  obtain ⟨tree, htree⟩ := exists_ofAddresses idcode addresses
  obtain ⟨ranges, hranges, hidcode, hcontains', henumerates'⟩ := hbounds.exists_ofRanges idcode
  have henumerates := haddresses.enumerates htree
  have hcontains {a : FrameAddress f} (ha : a.Canonical) := haddresses.contains_iff htree ha
  have hagree : AgreeOn FrameAddress.Canonical tree ranges := by
    refine ⟨?_, fun a ha => ?_, fun a b ha hb => ?_⟩
    · obtain ⟨top, bottom, -, -, rfl⟩ := ofAddresses_eq_ok.1 htree
      exact hidcode.symm
    · by_cases hmem : a ∈ addresses
      · exact henumerates.next?_eq henumerates' hmem
      · rw [next?_eq_none_of_not_contains fun h => hmem ((hcontains ha).1 h),
          next?_eq_none_of_not_contains fun h => hmem ((hcontains' a).1 h)]
    · have hmem := (hcontains ha).1 (contains_of_next?_eq_some hb)
      exact haddresses.canonical b (henumerates.of_next hmem hb).1.1
  have hlist := henumerates.addresses_eq henumerates'
  refine ⟨tree, ranges, htree, hranges, fun a ha => ⟨?_, hagree.next? a ha⟩,
    henumerates.first?_eq henumerates', henumerates.walk_eq henumerates', hlist, fun frames => ?_,
    fun frames => hagree.segments, fun packets => hagree.replay⟩
  · exact Bool.eq_iff_iff.2 ((hcontains ha).trans (hcontains' a).symm)
  · rw [Frames.assemblePayload, hlist, Frames.assemblePayload]

/-- Frames on both sides of each kind of carry: columns, rows, halves and block types. -/
def carries : List (FrameAddress .series7) :=
  [⟨0⟩, ⟨1⟩, ⟨0x80⟩, ⟨0x20000⟩, ⟨0x400000⟩, ⟨0x800000⟩]

/-- The frames on both sides of each kind of carry as ranges, and a range without addresses. -/
def carryBounds : List (Word × Word) :=
  [(0x800000, 0x800001), (0x20000, 0x20001), (7, 7), (0, 2), (0x80, 0x81), (0x400000, 0x400001)]

/-- Data from the second frame on: two frames, the padding of the row, and a third frame. -/
def overCarries : List (Packet .series7) :=
  [.frameAddress ⟨1⟩, .command _ .writeConfig, .longWrite (.frameDataInput _)
    (List.replicate 101 1 ++ List.replicate 101 2 ++ List.replicate 202 0 ++
      List.replicate 101 3)]

theorem layouts_agree_carries :
    FillsColumns carries ∧ Partitions carryBounds carries ∧
      ∃ tree ranges : Part .series7,
        Part.ofAddresses 0 carries = .ok tree ∧ Part.ofRanges 0 carryBounds = .ok ranges ∧
        tree.addresses = ranges.addresses ∧
        (∀ a, Replay.Held tree .initial overCarries a → a.Canonical) ∧
        replay tree overCarries = replay ranges overCarries := by
  have haddresses : FillsColumns carries := ⟨by decide, by decide, by decide⟩
  have hbounds : Partitions carryBounds carries := by
    constructor
    · have hapart : carryBounds.Pairwise fun b c => b.2 ≤ c.1 ∨ c.2 ≤ b.1 := by decide
      refine hapart.imp fun hbc raw ⟨⟨hb, hb'⟩, ⟨hc, hc'⟩⟩ => ?_
      bv_omega
    · rintro ⟨raw⟩
      simp only [carries, carryBounds, InBounds, List.mem_cons, List.not_mem_nil, or_false,
        FrameAddress.mk.injEq, exists_eq_or_imp, exists_eq_left]
      bv_omega
  obtain ⟨tree, ranges, htree, hranges, -, -, -, hlist, -, -, hreplay⟩ :=
    layouts_agree 0 haddresses hbounds
  have hheld : ∀ a, Replay.Held tree .initial overCarries a → a.Canonical := by
    have hall : (Part.ofAddresses 0 carries).toOption.all fun tree =>
        (Replay.heldAddresses tree .initial overCarries).all fun a => a.Canonical := by
      decide +kernel
    rw [htree] at hall
    intro a ha
    exact of_decide_eq_true (List.all_eq_true.1 hall a (Replay.mem_heldAddresses_iff.2 ha))
  exact ⟨haddresses, hbounds, tree, ranges, htree, hranges, hlist, hheld, hreplay _ hheld⟩

end Part
end FpgaBitstream
