import FpgaBitstream.Crc
import FpgaBitstream.Proofs.Decoding
import FpgaBitstream.Proofs.Replay

/-!
# The normal form of a stream

A stream may have stray bits in the headers of its padding and in the reserved bits of other
headers, words that belong to no packet, and a last packet that is cut off.  Written back, its
packets are words without any of these.  What is lost says nothing: but for the opcode of padding,
the packets that were read can be sent as they are (`Packet.sendable_decodeAfter`), so they are read
back, and padding has no effect in the replay or on the CRC (`Replay.run_normal`,
`Crc.ofPackets_normal`).
-/

namespace FpgaBitstream

variable {f : Family}

namespace Packet

/-! ## Padding -/

/-- A packet without the stray opcode of padding. -/
def normal (p : Packet f) : Packet f := if p.header = .type0 then { p with opcode := .nop } else p

@[simp] theorem header_normal (p : Packet f) : p.normal.header = p.header := by
  unfold normal
  split <;> rfl

@[simp] theorem register_normal (p : Packet f) : p.normal.register = p.register := by
  unfold normal
  split <;> rfl

@[simp] theorem data_normal (p : Packet f) : p.normal.data = p.data := by
  unfold normal
  split <;> rfl

theorem normal_of_ne {p : Packet f} (h : p.header ≠ .type0) : p.normal = p := if_neg h

theorem opcode_normal {p : Packet f} (h : p.header = .type0) : p.normal.opcode = .nop := by
  rw [normal, if_pos h]

/-- The header word of padding has no opcode. -/
theorem words_normal (p : Packet f) : p.normal.words = p.words := by
  by_cases h : p.header = .type0
  · obtain ⟨header, opcode, register, data⟩ := p
    obtain rfl : header = .type0 := h
    rfl
  · rw [normal_of_ne h]

theorem flatMap_words_normal (packets : List (Packet f)) :
    (packets.map normal).flatMap words = packets.flatMap words := by
  induction packets with
  | nil => rfl
  | cons p rest ih => rw [List.map_cons, List.flatMap_cons, List.flatMap_cons, words_normal, ih]

/-- A packet that, if it is padding, names the register that padding is read with. -/
def Pads (p : Packet f) : Prop := p.header = .type0 → p.register = .crc f

/-! ## Packets that were read can be sent -/

/-- A packet whose register has an address that fits the header. -/
def InFile (p : Packet f) : Prop := p.register.raw.toNat < 2 ^ f.headerLayout.register.width

section Takes
variable {previous : Option (Packet f)} {own : List Word} {p : Packet f}

theorem Takes.pads (h : Takes previous own (.packet p)) : p.Pads := by
  obtain ⟨header, -, hannounces⟩ := h.exists_header
  exact fun htype => Option.some.inj (hannounces.plain htype).1

theorem Takes.follows (h : Takes previous own (.packet p)) : p.Follows previous := by
  obtain ⟨header, -, hannounces⟩ := h.exists_header
  exact fun hwide htype => (hannounces.inherited hwide htype).symm

/-- The register that a packet inherits is one that was read before. -/
theorem Takes.inFile (h : Takes previous own (.packet p)) (hprevious : ∀ q ∈ previous, q.InFile) :
    p.InFile := by
  obtain ⟨header, -, hannounces⟩ := h.exists_header
  rcases hannounces.fits p.register rfl with hfits | hinherited
  · exact hfits
  · obtain ⟨q, hq, hregister⟩ := Option.map_eq_some_iff.1 hinherited.symm
    have hq := hprevious q hq
    rwa [InFile, hregister] at hq

theorem Takes.fits_normal (h : Takes previous own (.packet p))
    (hprevious : ∀ q ∈ previous, q.InFile) (hown : ∀ word ∈ own, f.Holds word) :
    p.normal.Fits := by
  have hregister := h.inFile hprevious
  obtain ⟨header, rfl, hannounces⟩ := h.exists_header
  constructor
  · rw [register_normal]
    exact hregister
  · rw [data_normal]
    exact fun word hmem => hown word (List.mem_append_right _ hmem)
  · rw [header_normal, register_normal, data_normal]
    intro htype
    obtain ⟨hcrc, hcount⟩ := hannounces.plain htype
    exact ⟨opcode_normal htype, Option.some.inj hcrc, List.length_eq_zero_iff.1 hcount⟩
  · rw [header_normal, data_normal]
    exact hannounces.short
  · rw [header_normal, data_normal]
    exact hannounces.long

theorem Takes.follows_normal (h : Takes previous own (.packet p)) :
    p.normal.Follows (previous.map normal) := by
  intro hwide htype
  rw [header_normal] at htype
  have hregister : (fun q : Packet f => q.normal.register) = (·.register) :=
    funext register_normal
  rw [Option.map_map, register_normal, ← h.follows hwide htype]
  exact congrArg (Option.map · previous) hregister

end Takes

/-- **Packets that were read can be sent**, whatever stood between them. -/
theorem sendable_decodeAfter (previous : Option (Packet f)) (words : List Word)
    (hprevious : ∀ q ∈ previous, q.InFile) (hwords : ∀ word ∈ words, f.Holds word) :
    Sendable (previous.map normal) ((decodeAfter previous words).map normal) := by
  induction previous, words using decode_induction with
  | packet previous own p rest h ih =>
    have hown : ∀ word ∈ own, f.Holds word := fun word hmem =>
      hwords word (List.mem_append_left _ hmem)
    rw [h.decodeAfter_packet, List.map_cons]
    refine .cons (h.fits_normal hprevious hown) h.follows_normal (ih ?_ fun word hmem =>
      hwords word (List.mem_append_right _ hmem))
    rintro q ⟨⟩
    exact h.inFile hprevious
  | passed previous own rest h ih =>
    rw [h.decodeAfter_skipped]
    exact ih hprevious fun word hmem => hwords word (List.mem_append_right _ hmem)
  | last previous words h =>
    rw [h.decodeAfter]
    exact .nil

theorem pads_of_mem_decodeAfter {previous : Option (Packet f)} {words : List Word} :
    ∀ p ∈ decodeAfter previous words, p.Pads := by
  induction previous, words using decode_induction with
  | packet previous own p rest h ih =>
    rw [h.decodeAfter_packet]
    exact List.forall_mem_cons.2 ⟨h.pads, ih⟩
  | passed previous own rest h ih =>
    rw [h.decodeAfter_skipped]
    exact ih
  | last previous words h =>
    rw [h.decodeAfter]
    exact nofun

end Packet

/-! ## Padding has no effect -/

theorem Register.role_crc (f : Family) : (Register.crc f).role = .crc := by
  cases f <;> rfl

theorem Replay.step_normal (part : Part f) (s : State f) {p : Packet f} (h : p.Pads) :
    step part s p.normal = step part s p := by
  by_cases htype : p.header = .type0
  · have hwrite : write part s .crc p.data = some s := rfl
    rw [step_of_ne (by rw [Packet.opcode_normal htype]; decide), step, h htype, Register.role_crc,
      hwrite, ite_self]
  · rw [Packet.normal_of_ne htype]

theorem Replay.run_normal (part : Part f) {packets : List (Packet f)}
    (h : ∀ p ∈ packets, p.Pads) (s : State f) :
    run part s (packets.map Packet.normal) = run part s packets := by
  induction packets generalizing s with
  | nil => rfl
  | cons p rest ih =>
    rw [List.map_cons, run_cons, run_cons, step_normal part s (h p List.mem_cons_self)]
    exact congrArg _ (funext (ih fun q hq => h q (List.mem_cons_of_mem _ hq)))

theorem Crc.updatePacket_normal (value : Word) {p : Packet f} (h : p.Pads) :
    updatePacket value p.normal = updatePacket value p := by
  by_cases htype : p.header = .type0
  · have hopcode : p.normal.opcode ≠ .write := by
      rw [Packet.opcode_normal htype]
      decide
    rw [updatePacket, if_neg hopcode, updatePacket, h htype, Register.role_crc]
    exact (ite_self value).symm
  · rw [Packet.normal_of_ne htype]

theorem Crc.ofPackets_normal {packets : List (Packet f)} (h : ∀ p ∈ packets, p.Pads) :
    ofPackets (packets.map Packet.normal) = ofPackets packets := by
  rw [ofPackets, ofPackets, List.foldl_map]
  exact List.foldl_ext _ _ _ fun value p hmem => updatePacket_normal value (h p hmem)

/-! ## The normal form -/

namespace Packet

/-- **Reading and writing back is a normal form that preserves meaning.**  The words that the
packets of a run are written to spell the same packets, the opcode of padding aside; these are
written to the same words, and have the same effect in every replay and on the CRC. -/
theorem normalForm (words : List Word) (hwords : ∀ word ∈ words, f.Holds word) :
    let packets : List (Packet f) := decodeAll words
    decodeAll (packets.flatMap Packet.words) = packets.map normal ∧
      (packets.map normal).flatMap Packet.words = packets.flatMap Packet.words ∧
      (∀ part : Part f, replay part (packets.map normal) = replay part packets) ∧
      Crc.ofPackets (packets.map normal) = Crc.ofPackets packets := by
  intro packets
  have hsendable : Sendable none (packets.map normal) :=
    sendable_decodeAfter none words nofun hwords
  have hpads : ∀ p ∈ packets, p.Pads := pads_of_mem_decodeAfter
  refine ⟨?_, flatMap_words_normal packets, fun part => ?_, Crc.ofPackets_normal hpads⟩
  · rw [← flatMap_words_normal, decodeAll_words hsendable]
  · rw [replay, replay, Replay.run_normal part hpads]

/-- A payload without a register, padding with stray bits, a write with reserved bits set, a payload
that goes to the same register, and a write that is cut off. -/
def strayWords : List Word :=
  [0x50000001, 0xDEADBEEF, 0x18000ABC, 0x30009801, 0x00000001, 0x50000002, 0x00000007, 0x0000000D,
    0x30002001]

theorem decodeAll_strayWords :
    (decodeAll strayWords : List (Packet .series7)) =
      [⟨.type0, .reserved, .crc .series7, []⟩, command .series7 .writeConfig,
        longWrite (.command .series7) [0x00000007, 0x0000000D]] := by
  rw [decodeAll, strayWords, decodeOnto_of_skipped rfl, decodeOnto_of_packet rfl,
    decodeOnto_of_packet rfl, decodeOnto_of_packet rfl, decodeOnto_of_incomplete rfl]
  rfl

theorem normalForm_strayWords :
    (∀ word ∈ strayWords, Family.series7.Holds word) ∧
      decodeAll ((decodeAll strayWords : List (Packet .series7)).flatMap Packet.words) =
        [zeroPad .series7, command .series7 .writeConfig,
          longWrite (.command .series7) [0x00000007, 0x0000000D]] := by
  have hwords : ∀ word ∈ strayWords, Family.series7.Holds word := by decide
  refine ⟨hwords, (normalForm strayWords hwords).1.trans ?_⟩
  rw [decodeAll_strayWords]
  rfl

end Packet
end FpgaBitstream
