import FpgaBitstream.Proofs.NormalForm

/-!
# The register of a long write

A wide header of type 2 has no room for a register and means that of the packet in front of it,
whatever that packet is.  Between the two there may be words that make up no packet, and the packet
may itself have taken its register from the one in front of it, so the register is that of the last
packet which is not of type 2 (`Packet.heldRegister`).

This is the last packet of type 1, unless padding stands in between.  Padding is read as a packet
for the register with address zero, and the header behind it means that one
(`Packet.register_of_type2`).
-/

namespace FpgaBitstream

variable {f : Family}

namespace Packet

/-! ## The register that is held -/

/-- The register that a header of type 2 means behind a run of packets, if `first` is the one that
it means in front of them. -/
def heldRegister (first : Option (Register f)) (packets : List (Packet f)) : Option (Register f) :=
  packets.foldl (fun held p => if p.header = .type2 then held else some p.register) first

section Held
variable {first : Option (Register f)} {p : Packet f} {packets : List (Packet f)}

@[simp] theorem heldRegister_nil : heldRegister first ([] : List (Packet f)) = first := rfl

theorem heldRegister_cons_of_type2 (h : p.header = .type2) :
    heldRegister first (p :: packets) = heldRegister first packets := by
  rw [heldRegister, List.foldl_cons, if_pos h, heldRegister]

theorem heldRegister_cons_of_ne (h : p.header ≠ .type2) :
    heldRegister first (p :: packets) = heldRegister (some p.register) packets := by
  rw [heldRegister, List.foldl_cons, if_neg h, heldRegister]

theorem heldRegister_append (front : List (Packet f)) :
    heldRegister first (front ++ packets) = heldRegister (heldRegister first front) packets :=
  List.foldl_append

/-- A packet hands on its own register, and one of type 2 the register that it was given. -/
theorem Follows.heldRegister_cons {previous : Option (Packet f)} (h : p.Follows previous)
    (hwide : f.hasWideWords) :
    heldRegister (previous.map (·.register)) (p :: packets) =
      heldRegister (some p.register) packets := by
  by_cases htype : p.header = .type2
  · rw [heldRegister_cons_of_type2 htype, h hwide htype]
  · rw [heldRegister_cons_of_ne htype]

/-- **Without a packet of type 1** a run of packets leaves the register alone, unless it has
padding. -/
theorem heldRegister_eq_ite (hpads : ∀ q ∈ packets, q.Pads)
    (hnone : ∀ q ∈ packets, q.header ≠ .type1) :
    heldRegister first packets =
      if ∃ q ∈ packets, q.header = .type0 then some (.crc f) else first := by
  induction packets generalizing first with
  | nil => simp
  | cons q rest ih =>
    obtain ⟨hq, hrestPads⟩ := List.forall_mem_cons.1 hpads
    obtain ⟨hqtype, hrestNone⟩ := List.forall_mem_cons.1 hnone
    cases htype : q.header with
    | type0 =>
      have hne : q.header ≠ .type2 := by simp [htype]
      rw [heldRegister_cons_of_ne hne, ih hrestPads hrestNone, hq htype, ite_self,
        if_pos ⟨q, List.mem_cons_self, htype⟩]
    | type1 => exact absurd htype hqtype
    | type2 =>
      rw [heldRegister_cons_of_type2 htype, ih hrestPads hrestNone]
      simp [htype]

end Held

/-! ## What the decoder reads -/

/-- **Every packet of type 2** that is read has the register held by the packets in front of it. -/
theorem heldRegister_of_decodeAfter (hwide : f.hasWideWords) {previous : Option (Packet f)}
    {words : List Word} {before after : List (Packet f)} {p : Packet f}
    (h : decodeAfter previous words = before ++ p :: after) (htype : p.header = .type2) :
    heldRegister (previous.map (·.register)) before = some p.register := by
  induction previous, words using decode_induction generalizing before with
  | packet previous own q rest hown ih =>
    rw [hown.decodeAfter_packet] at h
    cases before with
    | nil =>
      obtain ⟨rfl, -⟩ := List.cons.inj h
      exact hown.follows hwide htype
    | cons first before =>
      obtain ⟨rfl, hrest⟩ := List.cons.inj h
      rw [hown.follows.heldRegister_cons hwide]
      exact ih hrest
  | passed previous own rest hown ih =>
    rw [hown.decodeAfter_skipped] at h
    exact ih h
  | last previous words hlast =>
    rw [hlast.decodeAfter] at h
    exact absurd h.symm (List.append_ne_nil_of_right_ne_nil _ (List.cons_ne_nil _ _))

/-- **A packet of type 2 has the register of the last packet of type 1**, unless padding stands
between the two: then it has the register that padding is read with.  It has that register as well
where no packet of type 1 was read, and there is padding in front of it then. -/
theorem register_of_type2 (hwide : f.hasWideWords) {words : List Word}
    {before after : List (Packet f)} {p : Packet f}
    (h : decodeAll words = before ++ p :: after) (htype : p.header = .type2) :
    (∀ front q between, before = front ++ q :: between → q.header = .type1 →
      (∀ r ∈ between, r.header ≠ .type1) →
        p.register = if ∃ r ∈ between, r.header = .type0 then .crc f else q.register) ∧
    ((∀ r ∈ before, r.header ≠ .type1) →
      p.register = .crc f ∧ ∃ r ∈ before, r.header = .type0) := by
  have hdecode : decodeAfter none words = before ++ p :: after := h
  have hheld : heldRegister none before = some p.register :=
    heldRegister_of_decodeAfter hwide hdecode htype
  have hpads : ∀ r ∈ before, r.Pads := fun r hmem =>
    pads_of_mem_decodeAfter r (hdecode ▸ List.mem_append_left _ hmem)
  constructor
  · rintro front q between rfl hq hnone
    have hne : q.header ≠ .type2 := by simp [hq]
    have hbetween : ∀ r ∈ between, r.Pads := fun r hmem =>
      hpads r (List.mem_append_right _ (List.mem_cons_of_mem _ hmem))
    rw [heldRegister_append, heldRegister_cons_of_ne hne,
      heldRegister_eq_ite hbetween hnone] at hheld
    apply Option.some.inj
    rw [← hheld, apply_ite some]
  · intro hnone
    rw [heldRegister_eq_ite hpads hnone] at hheld
    split at hheld
    case isTrue hpadding => exact ⟨(Option.some.inj hheld).symm, hpadding⟩
    case isFalse => cases hheld

/-- A payload without a register, an empty write of frame data, a payload that goes to the same
register, padding, and another payload. -/
def paddedWords : List Word :=
  [0x50000001, 0xDEADBEEF, 0x30004000, 0x50000001, 0x00000007, 0x00000000, 0x50000001, 0x0000000D]

theorem decodeAll_paddedWords :
    (decodeAll paddedWords : List (Packet .series7)) =
      [write (.frameDataInput _) [], longWrite (.frameDataInput _) [0x00000007],
        zeroPad _, longWrite (.crc _) [0x0000000D]] := by
  rw [decodeAll, paddedWords, decodeOnto_of_skipped rfl, decodeOnto_of_packet rfl,
    decodeOnto_of_packet rfl, decodeOnto_of_packet rfl, decodeOnto_of_packet rfl,
    decodeOnto_of_incomplete rfl]
  rfl

theorem register_of_type2_paddedWords :
    ∃ (p q : Packet .series7) (before after : List (Packet .series7)),
      decodeAll paddedWords = before ++ [p] ++ after ++ [q] ∧
        p.header = .type2 ∧ p.register = .frameDataInput _ ∧
        q.header = .type2 ∧ q.register = .crc _ := by
  have hfirst := (@register_of_type2 _ rfl _ [_] _ _ decodeAll_paddedWords rfl).1
    [] _ [] rfl rfl nofun
  have hsecond := (@register_of_type2 _ rfl _ [_, _, _] _ _ decodeAll_paddedWords rfl).1
    [] _ [_, _] rfl rfl (by decide)
  exact ⟨_, _, [_], [_], decodeAll_paddedWords, rfl, hfirst, rfl, hsecond⟩

/-- **Not every packet of type 2** has the register of the last packet of type 1 in front of it. -/
theorem not_forall_register_of_type2 :
    ¬ ∀ (words : List Word) (front between after : List (Packet .series7))
      (q p : Packet .series7), decodeAll words = front ++ q :: between ++ p :: after →
        q.header = .type1 → (∀ r ∈ between, r.header ≠ .type1) → p.header = .type2 →
          p.register = q.register := by
  intro h
  have hsame := h paddedWords [] [longWrite (.frameDataInput _) [0x00000007], zeroPad _] [] _ _
    decodeAll_paddedWords rfl (by decide) rfl
  exact absurd hsame (by decide)

end Packet
end FpgaBitstream
