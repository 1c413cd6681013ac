import FpgaBitstream.Proofs.FrameLines
import FpgaBitstream.Proofs.RoundTrip

/-!
# Frames from a file

A line of a frame file is accepted when it has as many words as a frame at its address must have,
so a set that was read is made of frames of that length (`Frames.sized_of_readLines`).  A word on a
line may be any number of 32 bits, but the bytes of a stream hold the low bits of a word that the
family has room for (`Family.cut`).  Written as packets and decoded, the set that was read comes
back with every word cut to these bits (`Frames.decode_packetize_of_ofFile`): on the families with
wide words it is the same set, and on Spartan-6 exactly if all words fit the narrow stream.
-/

namespace FpgaBitstream

variable {f : Family}

/-! ## What a file is read to -/

namespace Frames

/-- A set that was read from a file of text or of bytes. -/
inductive OfFile (frames : Frames f) : Prop where
  | ofText (text : List Char) (h : Frames.ofText text = .ok frames)
  | ofBytes (bytes : List UInt8) (h : Frames.ofBytes bytes = .ok frames)

/-- Every frame has the number of words that its address asks for. -/
def Sized (frames : Frames f) : Prop :=
  ∀ entry ∈ frames.toList, ∀ count, expectedWords? entry.1 = some count → entry.2.length = count

theorem Sized.insert {frames : Frames f} (h : frames.Sized) {a : FrameAddress f}
    {words : List Word} (hwords : ∀ count, expectedWords? a = some count → words.length = count) :
    Frames.Sized (frames.insert a words) := by
  intro entry hmem
  rcases SortedMap.mem_toList_insert hmem with rfl | hmem
  · exact hwords
  · exact h entry hmem

/-- A line with a wrong number of words is not accepted. -/
theorem length_of_parseLine {line : Nat} {text : Option (List Char)} {a : FrameAddress f}
    {words : List Word} (h : parseLine line text = .ok (some (a, words))) (count : Nat)
    (hcount : expectedWords? a = some count) : words.length = count := by
  cases text with
  | none => cases h
  | some text => exact (parseLine_eq_ok_some_iff.1 h).length count hcount

/-- **What is read from a file** is made of frames of the expected length. -/
theorem sized_of_readLines {lines : List (Option (List Char))} {line : Nat}
    {frames frames' : Frames f} (h : readLines line frames lines = .ok frames')
    (hsized : frames.Sized) : frames'.Sized := by
  induction lines generalizing line frames with
  | nil =>
    obtain rfl := Except.ok.inj h
    exact hsized
  | cons text rest ih =>
    rw [readLines] at h
    split at h
    case h_1 a words hline => exact ih h (hsized.insert (length_of_parseLine hline))
    case h_2 => exact ih h hsized
    case h_3 => cases h

theorem OfFile.sized {frames : Frames f} (h : frames.OfFile) : frames.Sized := by
  have hempty : Frames.Sized (SortedMap.empty : Frames f) := nofun
  cases h with
  | ofText text h => exact sized_of_readLines h hempty
  | ofBytes bytes h => exact sized_of_readLines h hempty

end Frames

/-! ## Words cut to the stream -/

/-- A word of which the stream has the low bits. -/
def Family.cut (f : Family) (word : Word) : Word := (word.setWidth (8 * f.wordBytes)).setWidth 32

theorem Family.holds_cut (f : Family) (word : Word) : f.Holds (f.cut word) := by
  have hlt := (word.setWidth (8 * f.wordBytes)).isLt
  rw [Holds, cut, BitVec.toNat_setWidth]
  exact Nat.lt_of_le_of_lt (Nat.mod_le _ _) hlt

theorem Family.map_cut {words : List Word} (h : ∀ word ∈ words, f.Holds word) :
    words.map f.cut = words :=
  (List.map_congr_left fun word hmem => f.setWidth_setWidth (h word hmem)).trans (List.map_id _)

/-- The bytes of a word are those of its low bits. -/
theorem Family.bytesOfWords_map_cut (words : List Word) :
    f.bytesOfWords (words.map f.cut) = f.bytesOfWords words := by
  have hwidth : 8 * f.wordBytes ≤ 32 := by cases f <;> decide
  have hcut (word : Word) :
      (f.cut word).setWidth (8 * f.wordBytes) = word.setWidth (8 * f.wordBytes) := by
    rw [cut, BitVec.setWidth_setWidth_of_le _ hwidth, BitVec.setWidth_eq]
  rw [bytesOfWords, bytesOfWords, List.map_map]
  exact congrArg _ (List.map_congr_left fun word _ => hcut word)

namespace Packet

/-- A packet with its data cut to the stream. -/
def cut (p : Packet f) : Packet f := { p with data := p.data.map f.cut }

theorem cut_of_holds {p : Packet f} (h : ∀ word ∈ p.data, f.Holds word) : p.cut = p := by
  rw [cut, Family.map_cut h]

/-- The header of a packet depends on the number of words only. -/
theorem headerWords_cut (p : Packet f) : p.cut.headerWords = p.headerWords := by
  simp only [headerWords, cut, List.length_map]

theorem bytesOfWords_cut (packets : List (Packet f)) :
    f.bytesOfWords ((packets.map cut).flatMap words) = f.bytesOfWords (packets.flatMap words) := by
  induction packets with
  | nil => rfl
  | cons p rest ih =>
    have hp : f.bytesOfWords p.cut.words = f.bytesOfWords p.words := by
      rw [words, headerWords_cut, Family.bytesOfWords_append, cut, Family.bytesOfWords_map_cut,
        ← Family.bytesOfWords_append]
      rfl
    rw [List.map_cons, List.flatMap_cons, List.flatMap_cons, Family.bytesOfWords_append, hp, ih,
      ← Family.bytesOfWords_append]

/-- **The bytes of packets** hold what is left of their data. -/
theorem encodeBytes_cut (packets : List (Packet f)) :
    encodeBytes (packets.map cut) = encodeBytes packets := by
  rw [encodeBytes, encodeBytes, encodeAll, encodeAll, Family.bytesOfWords_append, bytesOfWords_cut,
    ← Family.bytesOfWords_append]

end Packet

/-! ## Frames cut to the stream -/

theorem dataPackets_cut (frame : List Word) :
    dataPackets f (frame.map f.cut) = (dataPackets f frame).map Packet.cut := by
  unfold dataPackets
  rw [List.length_map]
  split <;> rfl

theorem framePackets_cut (part : Part f) (a : FrameAddress f) (frame : List Word) :
    framePackets part a (frame.map f.cut) = (framePackets part a frame).map Packet.cut := by
  have haddress : (Packet.frameAddress a).cut = Packet.frameAddress a :=
    Packet.cut_of_holds (Packet.fits_frameAddress a).1.words
  have hpadding : (Packet.zeroPad f).cut = Packet.zeroPad f := rfl
  rw [framePackets, framePackets, List.map_cons, List.map_append, List.map_replicate, haddress,
    hpadding, dataPackets_cut]

namespace Frames

/-- A set with its words cut to the stream. -/
def cut (frames : Frames f) : Frames f := frames.map fun _ words => words.map f.cut

theorem toList_cut (frames : Frames f) :
    frames.cut.toList = frames.toList.map fun entry => (entry.1, entry.2.map f.cut) := rfl

theorem packetize_cut (part : Part f) (frames : Frames f) :
    frames.cut.packetize part = (frames.packetize part).map Packet.cut := by
  rw [packetize_eq, packetize_eq, toList_cut, List.flatMap_map, List.map_flatMap]
  exact congrArg frames.toList.flatMap
    (funext fun (a, frame) => framePackets_cut part a frame)

theorem cut_eq_of_holds {frames : Frames f}
    (h : ∀ entry ∈ frames.toList, ∀ word ∈ entry.2, f.Holds word) : frames.cut = frames := by
  refine SortedMap.ext_toList ?_
  have hentry (entry : FrameAddress f × List Word) (hmem : entry ∈ frames.toList) :
      (entry.1, entry.2.map f.cut) = entry :=
    Prod.ext rfl (Family.map_cut (h entry hmem))
  exact (List.map_congr_left hentry).trans (List.map_id _)

/-- Frames of the right length are whole once they are cut. -/
theorem whole_cut {frames : Frames f}
    (h : ∀ entry ∈ frames.toList, entry.2.length = f.wordsPerFrame) : frames.cut.Whole := by
  intro entry hmem
  rw [toList_cut] at hmem
  obtain ⟨original, horiginal, rfl⟩ := List.mem_map.1 hmem
  refine ⟨(List.length_map ..).trans (h original horiginal), fun word hword => ?_⟩
  obtain ⟨word, -, rfl⟩ := List.mem_map.1 hword
  exact f.holds_cut word

/-- The packets of a set are decoded to what is left of it. -/
theorem decode_packetize (part : Part f) {frames : Frames f}
    (h : ∀ entry ∈ frames.toList, entry.2.length = f.wordsPerFrame) :
    Tool.decode part (Packet.encodeBytes (.command f .writeConfig :: frames.packetize part)) =
      .ok frames.cut := by
  have hcommand : (Packet.command f .writeConfig).cut = .command f .writeConfig :=
    Packet.cut_of_holds (Packet.fits_command (by cases f <;> decide)).words
  rw [← Packet.encodeBytes_cut, List.map_cons, hcommand, ← packetize_cut]
  have hwhole := whole_cut h
  exact Tool.decode_encodeBytes (sendable_packetize part hwhole)
    (Replay.run_packetize_initial hwhole part)

theorem OfFile.length {frames : Frames f} (h : frames.OfFile)
    (hvarying : ∀ entry ∈ frames.toList,
      expectedWords? entry.1 = none → entry.2.length = f.wordsPerFrame) :
    ∀ entry ∈ frames.toList, entry.2.length = f.wordsPerFrame := by
  intro entry hmem
  have hsized := h.sized entry hmem
  by_cases hcount : expectedWords? entry.1 = none
  · exact hvarying entry hmem hcount
  · refine hsized _ ?_
    unfold expectedWords? at hcount ⊢
    split at hcount
    · exact absurd rfl hcount
    · rw [if_neg ‹_›]

/-- **What is read from a file can be carried**, as far as its words fit the stream.  Written as the
packets of each frame and decoded, the set that was read comes back with every word cut to the width
of the stream.  It is the same set exactly if all words fit, as they do in wide words. -/
theorem decode_packetize_of_ofFile (part : Part f) {frames : Frames f} (h : frames.OfFile)
    (hvarying : ∀ entry ∈ frames.toList,
      expectedWords? entry.1 = none → entry.2.length = f.wordsPerFrame) :
    let decoded :=
      Tool.decode part (Packet.encodeBytes (.command f .writeConfig :: frames.packetize part))
    decoded = .ok frames.cut ∧
      (decoded = .ok frames ↔ ∀ entry ∈ frames.toList, ∀ word ∈ entry.2, f.Holds word) ∧
      (f.hasWideWords → decoded = .ok frames) := by
  intro decoded
  have hdecoded : decoded = .ok frames.cut := decode_packetize part (h.length hvarying)
  have hiff : decoded = .ok frames ↔ ∀ entry ∈ frames.toList, ∀ word ∈ entry.2, f.Holds word := by
    constructor
    · intro hsame entry hmem
      exact (Tool.whole_of_decode hsame entry hmem).holds
    · intro hholds
      rw [hdecoded, cut_eq_of_holds hholds]
  exact ⟨hdecoded, hiff, fun hwide => hiff.2 fun _ _ word _ => f.holds_of_wide hwide word⟩

/-- The line of a frame at the first address of which all words but the first are zero. -/
def firstWordLine (word : String) : List Char :=
  ("0x0 " ++ word).toList ++ (List.replicate 64 [',', '0']).flatten ++ ['\n']

/-- The set that is read from the line. -/
def firstWordFrame (word : Word) : Frames .spartan6 :=
  .ofList [(⟨0⟩, word :: List.replicate 64 0)]

/-- A part with the first address only. -/
def firstFramePart : Part .spartan6 where
  idcode := 0x04000013
  layout := .regions ⟨.ofList [(0, ⟨.ofList [(.clbIoClk, ⟨.ofList [(0, ⟨1⟩)]⟩)]⟩)]⟩ .empty

theorem decode_packetize_of_ofFile_firstWord :
    Frames.ofText (firstWordLine "0xBEEF") = .ok (firstWordFrame 0xBEEF) ∧
      Tool.decode firstFramePart (Packet.encodeBytes (.command .spartan6 .writeConfig ::
        (firstWordFrame 0xBEEF).packetize firstFramePart)) = .ok (firstWordFrame 0xBEEF) := by
  have hread : Frames.ofText (firstWordLine "0xBEEF") = .ok (firstWordFrame 0xBEEF) :=
    eq_ok_of_toOption (by decide +kernel)
  have hvarying : ∀ entry ∈ (firstWordFrame 0xBEEF).toList,
      expectedWords? entry.1 = none → entry.2.length = Family.spartan6.wordsPerFrame := by
    decide +kernel
  have hholds : ∀ entry ∈ (firstWordFrame 0xBEEF).toList,
      ∀ word ∈ entry.2, Family.spartan6.Holds word := by
    decide +kernel
  have hdecode := decode_packetize_of_ofFile firstFramePart (.ofText _ hread) hvarying
  exact ⟨hread, hdecode.2.1.2 hholds⟩

/-- **Not every set that is read from a file can be carried**: a word of more than 16 bits is
accepted for Spartan-6 as well, and loses its high half. -/
theorem not_forall_decode_packetize :
    ¬ ∀ (part : Part .spartan6) (frames : Frames .spartan6), frames.OfFile →
      (∀ entry ∈ frames.toList, entry.2.length = Family.spartan6.wordsPerFrame) →
      Tool.decode part (Packet.encodeBytes
        (.command .spartan6 .writeConfig :: frames.packetize part)) = .ok frames := by
  intro h
  have hread : Frames.ofText (firstWordLine "0x10000") = .ok (firstWordFrame 0x10000) :=
    eq_ok_of_toOption (by decide +kernel)
  have hlength : ∀ entry ∈ (firstWordFrame 0x10000).toList,
      entry.2.length = Family.spartan6.wordsPerFrame := by
    decide +kernel
  have hwhole : (firstWordFrame 0x10000).Whole :=
    Tool.whole_of_decode (h firstFramePart _ (.ofText _ hread) hlength)
  have hnot : ¬ (firstWordFrame 0x10000).Whole := by decide +kernel
  exact hnot hwhole

end Frames
end FpgaBitstream
