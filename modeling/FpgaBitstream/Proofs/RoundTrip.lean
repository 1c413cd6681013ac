import FpgaBitstream.Proofs.BitHeader
import FpgaBitstream.Proofs.Package
import FpgaBitstream.Tool

/-!
# Round trips

Packets that can be sent are read back from their bytes, and packages are made of such packets
(`packets_roundTrip`).  Three ways lead from frames to a bitstream: the package of a whole part, the
package of the segments of a set of frames, and the packets of each frame by itself.  Decoding
undoes them all: the first gives a frame for each address of the part (`fullPackage_roundTrip`), the
other two give back the set (`partialPackage_roundTrip`, `packetize_roundTrip`), whatever its
addresses.  As all frames that decoding yields are whole, even those of a damaged bitstream can be
written again (`resynthesis`).
-/

namespace FpgaBitstream

variable {f : Family} {part : Part f}

/-! ## Decoding -/

theorem Tool.packets_eq_ok {bytes : List UInt8} {packets : List (Packet f)} :
    Tool.packets bytes = .ok packets ↔
      (PacketStream.ofBytes? bytes).map (·.packets) = some packets := by
  unfold Tool.packets
  cases PacketStream.ofBytes? (f := f) bytes with
  | none => exact ⟨nofun, nofun⟩
  | some stream =>
    exact ⟨fun h => congrArg some (Except.ok.inj h), fun h => congrArg _ (Option.some.inj h)⟩

/-- Decoding is reading the packets and replaying them. -/
theorem Tool.decode_eq_ok {bytes : List UInt8} {frames : Frames f} :
    Tool.decode part bytes = .ok frames ↔
      ∃ packets, Tool.packets bytes = .ok packets ∧ replay part packets = some frames := by
  refine bind_eq_ok.trans (exists_congr fun packets => and_congr_right fun _ => ?_)
  cases replay part packets with
  | none => exact ⟨nofun, nofun⟩
  | some replayed =>
    exact ⟨fun h => congrArg some (Except.ok.inj h), fun h => congrArg _ (Option.some.inj h)⟩

/-- Packets that can be sent are decoded to what their replay writes. -/
theorem Tool.decode_encodeBytes {packets : List (Packet f)} {frames : Frames f}
    (hsend : Packet.Sendable none packets)
    (hrun : ∃ s, Replay.run part .initial packets = some s ∧ s.frames = frames) :
    Tool.decode part (Packet.encodeBytes packets) = .ok frames := by
  obtain ⟨s, hrun, rfl⟩ := hrun
  refine Tool.decode_eq_ok.2 ⟨packets, Tool.packets_eq_ok.2 (Packet.packets_encodeBytes hsend), ?_⟩
  rw [replay, hrun]
  rfl

/-- **Whatever is decoded is whole frames**, from any bytes. -/
theorem Tool.whole_of_decode {bytes : List UInt8} {frames : Frames f}
    (h : Tool.decode part bytes = .ok frames) : frames.Whole := by
  obtain ⟨packets, hpackets, hreplay⟩ := Tool.decode_eq_ok.1 h
  obtain ⟨stream, hstream, rfl⟩ := Option.map_eq_some_iff.1 (Tool.packets_eq_ok.1 hpackets)
  obtain ⟨s, hrun, rfl⟩ := Option.map_eq_some_iff.1 hreplay
  exact Replay.whole_run (fun p hp => PacketStream.holds_data hstream hp) hrun nofun

/-! ## Packets -/

/-- **Packets are read back as they were written**, from the bytes of any run that can be sent; and
the packages of segments that fit the words and the word counts of the family are such runs. -/
theorem packets_roundTrip (f : Family) :
    (∀ packets : List (Packet f), Packet.Sendable none packets →
      Tool.packets (Packet.encodeBytes packets) = .ok packets) ∧
    (∀ (part : Part f) (segments : List (Segment f)) (options : PackageOptions),
      (∀ segment ∈ segments,
        (∀ word ∈ segment.payload, f.Holds word) ∧ segment.payload.length < f.longLimit) →
      Packet.Sendable none (partialPackage part segments options)) ∧
    ∀ (part : Part f) (payload : List Word) (options : PackageOptions),
      (∀ word ∈ payload, f.Holds word) → payload.length < f.longLimit →
      Packet.Sendable none (fullPackage part payload options) := by
  refine ⟨fun packets hsend => ?_, fun part segments options hfits => ?_,
    fun part payload options hwords hlong => ?_⟩
  · exact Tool.packets_eq_ok.2 (Packet.packets_encodeBytes hsend)
  · exact Package.sendable_partialPackage options (fun segment hmem => (hfits segment hmem).1)
      fun segment hmem => (hfits segment hmem).2
  · exact Package.sendable_partialPackage options (List.forall_mem_singleton.2 hwords)
      (List.forall_mem_singleton.2 hlong)

/-- Packets of all three types: padding, nothing, a read, and a long write behind the empty write
that names its register. -/
def allTypes : List (Packet .series7) :=
  [.zeroPad _, .nop _, ⟨.type1, .read, .crc _, []⟩, .write (.frameDataInput _) [],
    .longWrite (.frameDataInput _) [0x01234567, 0x89ABCDEF]]

theorem packets_roundTrip_allTypes :
    Packet.Sendable none allTypes ∧
      Tool.packets (Packet.encodeBytes allTypes) = .ok allTypes := by
  have hsend : Packet.Sendable none allTypes :=
    .cons (by decide +kernel) nofun <| .cons (by decide +kernel) nofun <|
      .cons (by decide +kernel) nofun <| .cons (by decide +kernel) nofun <|
        .cons (by decide +kernel) (fun _ _ => rfl) .nil
  exact ⟨hsend, (packets_roundTrip .series7).1 allTypes hsend⟩

/-! ## Sets of frames

The theorems are tried on a Spartan-6 part of two rows, and on frames of which one lies outside
it. -/

/-- Two frames in the first row, and one in the second. -/
def twoRows : Part .spartan6 where
  idcode := 0x04000093
  layout :=
    let row (frameCount : Nat) : Row := ⟨.ofList [(.clbIoClk, ⟨.ofList [(0, ⟨frameCount⟩)]⟩)]⟩
    .regions ⟨.ofList [(0, row 2), (1, row 1)]⟩ ⟨.empty⟩

/-- Two neighbours, and a frame at an address of another block type. -/
def threeFrames : Frames .spartan6 := .ofList
  [(⟨0⟩, List.replicate 65 0x1234), (⟨1⟩, List.replicate 65 0xBEEF),
    (⟨0x10000000⟩, List.replicate 65 0x0001)]

/-- **The packets of each frame** of a set give back the set, whatever its addresses. -/
theorem packetize_roundTrip (part : Part f) (frames : Frames f) (hframes : frames.Whole) :
    Tool.decode part (Packet.encodeBytes (.command f .writeConfig :: frames.packetize part)) =
      .ok frames := by
  have hsend := sendable_packetize part hframes
  have hrun := Replay.run_packetize_initial hframes part
  exact Tool.decode_encodeBytes hsend hrun

theorem packetize_roundTrip_twoRows :
    Tool.decode twoRows (Packet.encodeBytes
      (.command .spartan6 .writeConfig :: threeFrames.packetize twoRows)) = .ok threeFrames :=
  packetize_roundTrip twoRows threeFrames (by decide +kernel)

/-- **The package of the segments** of a set gives back the set, whatever its addresses. -/
theorem partialPackage_roundTrip (part : Part f) (frames : Frames f) (hframes : frames.Whole)
    (hpayload : ∀ segment ∈ frames.segments part, segment.payload.length < 2 ^ 27)
    (options : PackageOptions) :
    Tool.decode part (Packet.encodeBytes (partialPackage part (frames.segments part) options)) =
      .ok frames := by
  have hsend := Package.sendable_segments hframes options hpayload
  have hrun := Package.run_partialPackage_segments hframes part options
  exact Tool.decode_encodeBytes hsend hrun

theorem partialPackage_roundTrip_twoRows :
    Tool.decode twoRows (Packet.encodeBytes (partialPackage twoRows
      (threeFrames.segments twoRows) { crcCheck := true })) = .ok threeFrames :=
  partialPackage_roundTrip twoRows threeFrames (by decide +kernel) (by decide +kernel) _

/-- **What was decoded can be written again**, in both ways, from whatever bytes it came. -/
theorem resynthesis (part : Part f) (bytes : List UInt8) (frames : Frames f)
    (h : Tool.decode part bytes = .ok frames) :
    Tool.decode part (Packet.encodeBytes (.command f .writeConfig :: frames.packetize part)) =
        .ok frames ∧
      ∀ options : PackageOptions,
        (∀ segment ∈ frames.segments part, segment.payload.length < 2 ^ 27) →
          Tool.decode part
              (Packet.encodeBytes (partialPackage part (frames.segments part) options)) =
            .ok frames := by
  -- only that the frames are whole is used of the bytes; their addresses may be any
  have hwhole := Tool.whole_of_decode h
  constructor
  · have hsend := sendable_packetize part hwhole
    have hrun := Replay.run_packetize_initial hwhole part
    exact Tool.decode_encodeBytes hsend hrun
  · intro options hpayload
    have hsend := Package.sendable_segments hwhole options hpayload
    have hrun := Package.run_partialPackage_segments hwhole part options
    exact Tool.decode_encodeBytes hsend hrun

/-- A stream behind two bytes of something else: the command to write, the address and the data of
one frame, and a header that announces more than there is. -/
def damagedStream : List UInt8 :=
  [0x00, 0x11] ++ syncWord ++
    [0x30, 0xA1, 0x00, 0x01] ++ [0x30, 0x22, 0x00, 0x00, 0x00, 0x01] ++
    [0x50, 0x60, 0x00, 0x00, 0x00, 0x41] ++ List.replicate 130 0x5A ++ [0x50, 0x60, 0xFF]

theorem resynthesis_damagedStream :
    Tool.decode twoRows damagedStream = .ok (.ofList [(⟨1⟩, List.replicate 65 0x5A5A)]) ∧
      Tool.decode twoRows (Packet.encodeBytes (.command .spartan6 .writeConfig ::
        Frames.packetize twoRows (.ofList [(⟨1⟩, List.replicate 65 0x5A5A)]))) =
          .ok (.ofList [(⟨1⟩, List.replicate 65 0x5A5A)]) := by
  have hdecode : Tool.decode twoRows damagedStream =
      .ok (.ofList [(⟨1⟩, List.replicate 65 0x5A5A)]) := by decide +kernel
  exact ⟨hdecode, (resynthesis twoRows damagedStream _ hdecode).1⟩

/-! ## Whole parts -/

/-- A stream does not begin like a file header. -/
theorem strip_encodeBytes (packets : List (Packet f)) :
    BitHeader.strip (Packet.encodeBytes packets) = (none, Packet.encodeBytes packets) := by
  obtain ⟨byte, rest, hbytes, hne⟩ :
      ∃ byte rest, f.bytesOfWords f.syncHeader = byte :: rest ∧ byte ≠ 0 := by
    cases f <;> exact ⟨_, _, rfl, by decide⟩
  rw [Packet.encodeBytes, Packet.encodeAll, Family.bytesOfWords_append, hbytes]
  exact BitHeader.strip_cons_of_ne hne _

/-- **The package of a whole part** gives a frame for each address of the part, be it a frame of
the set or a frame of zeros.  A header around the bytes makes no difference. -/
theorem fullPackage_roundTrip (part : Part f) (hbuilt : part.Built) (frames : Frames f)
    (hframes : ∀ a ∈ part.addresses, ∀ words, frames.get? a = some words → f.IsFrame words)
    (hpayload : (frames.assemblePayload part).length < 2 ^ 27) (options : PackageOptions) :
    (∀ limit, part.walk limit = part.addresses.take limit) ∧
      ∃ replayed,
        Tool.decode part (BitHeader.strip (Packet.encodeBytes
            (fullPackage part (frames.assemblePayload part) options))).2 = .ok replayed ∧
          (∀ header : BitHeader,
            (∀ field, (Utf8.encode (header.get field)).length ≤ 65534) →
              Tool.decode part (BitHeader.strip (header.write (Packet.encodeBytes
                (fullPackage part (frames.assemblePayload part) options)))).2 = .ok replayed) ∧
          replayed.keys = part.addresses ∧
          ∀ a ∈ part.addresses, replayed.get? a =
            some ((frames.get? a).getD (List.replicate f.wordsPerFrame 0)) := by
  have hclimbs := hbuilt.fits.climbs
  have hwhole : ∀ a ∈ part.addresses, f.IsFrame (frames.wordsAt a) :=
    fun a ha => frames.isFrame_wordsAt (hframes a ha)
  have hsend : Packet.Sendable none
      (fullPackage part (frames.assemblePayload part) options) := by
    apply Package.sendable_partialPackage
    · exact List.forall_mem_singleton.2 (frames.holds_payloadAlong hwhole)
    · exact List.forall_mem_singleton.2 (Nat.lt_of_lt_of_le hpayload f.two_pow_le_longLimit)
  have hrun : ∃ s, Replay.run part .initial
      (fullPackage part (frames.assemblePayload part) options) = some s ∧
      s.frames = frames.onPart part := by
    apply Package.run_partialPackage
    intro s hempty
    exact Package.run_assemblePayload hclimbs (fun a ha => (hwhole a ha).length) hempty
  have hdecode := Tool.decode_encodeBytes hsend hrun
  refine ⟨hclimbs.walk_eq_take, frames.onPart part, ?_, ?_, frames.keys_onPart hclimbs, ?_⟩
  · rw [strip_encodeBytes]
    exact hdecode
  · intro header hfields
    have hsize := Package.length_encodeBytes_lt hpayload part options
    rw [BitHeader.strip_write_eq hfields hsize]
    exact hdecode
  · intro a ha
    exact frames.get?_onPart hclimbs ha

theorem fullPackage_roundTrip_twoRows :
    ∃ replayed : Frames .spartan6,
      Tool.decode twoRows (BitHeader.strip (BitHeader.write { designName := "top" }
          (Packet.encodeBytes
            (fullPackage twoRows (threeFrames.assemblePayload twoRows) {})))).2 = .ok replayed ∧
        replayed.keys = [⟨0⟩, ⟨1⟩, ⟨0x01000000⟩] ∧
        replayed.get? ⟨1⟩ = some (List.replicate 65 0xBEEF) ∧
        replayed.get? ⟨0x01000000⟩ = some (List.replicate 65 0) := by
  have hbuilt : twoRows.Built :=
    .ofAddresses 0x04000093 [⟨0x00000001⟩, ⟨0x01000000⟩] (by decide +kernel)
  have hwhole : threeFrames.Whole := by decide +kernel
  have haddresses : twoRows.addresses = [⟨0⟩, ⟨1⟩, ⟨0x01000000⟩] := by decide +kernel
  obtain ⟨-, replayed, -, hheader, hkeys, hframes⟩ :=
    fullPackage_roundTrip twoRows hbuilt threeFrames (fun _ _ _ hget => hwhole.isFrame hget)
      (by decide +kernel) {}
  rw [haddresses] at hkeys hframes
  refine ⟨replayed, hheader _ fun field => ?_, hkeys, ?_, ?_⟩
  · cases field <;> decide +kernel
  · rw [hframes ⟨1⟩ (by decide)]
    decide +kernel
  · rw [hframes ⟨0x01000000⟩ (by decide)]
    decide +kernel

end FpgaBitstream
