import FpgaBitstream.Proofs.Packetizing

/-!
# Drawing packets one at a time

What a packetizer writes is said frame by frame, without its states: the address, the data in one
packet or two (`CarriesFrame`), and the padding where the row ends (`PadsRow`).  These rules admit
one run of packets for a list of frames (`describes_iff`), whatever their lengths.  A call draws the
first of the packets that are pending and leaves the others (`Packetizer.next_eq`), so by induction
the calls draw that run packet by packet, and nothing from its end on
(`Packetizer.draw_ofFrames`).
-/

namespace FpgaBitstream

variable {f : Family}

/-! ## The packets of frames -/

/-- The packets that carry the data of a frame: one of type 1, or an empty one and one of type 2
where the frame is too long for it. -/
inductive CarriesFrame (frame : List Word) : List (Packet f) → Prop where
  | short (h : frame.length ≤ f.maxType1Words) :
      CarriesFrame frame [.write (.frameDataInput f) frame]
  | long (h : f.maxType1Words < frame.length) :
      CarriesFrame frame [.write (.frameDataInput f) [], .longWrite (.frameDataInput f) frame]

/-- The padding behind the frame of an address: two frames where no frame follows it or one outside
its row, and none within a row. -/
inductive PadsRow (part : Part f) (a : FrameAddress f) : List (Packet f) → Prop where
  | last (h : part.next? a = none) :
      PadsRow part a (List.replicate (2 * f.wordsPerFrame) (.zeroPad f))
  | crossing {next : FrameAddress f} (h : part.next? a = some next) (hcross : a.crossesRow next) :
      PadsRow part a (List.replicate (2 * f.wordsPerFrame) (.zeroPad f))
  | within {next : FrameAddress f} (h : part.next? a = some next) (hcross : ¬ a.crossesRow next) :
      PadsRow part a []

/-- The packets of a list of frames, those of each frame behind those of the frame before. -/
inductive Describes (part : Part f) :
    List (FrameAddress f × List Word) → List (Packet f) → Prop where
  | nil : Describes part [] []
  | cons {a : FrameAddress f} {frame : List Word} {frames : List (FrameAddress f × List Word)}
      {data padding packets : List (Packet f)} (hdata : CarriesFrame frame data)
      (hpadding : PadsRow part a padding) (hrest : Describes part frames packets) :
      Describes part ((a, frame) :: frames) (.frameAddress a :: (data ++ padding ++ packets))

theorem carriesFrame_iff {frame : List Word} {data : List (Packet f)} :
    CarriesFrame frame data ↔ data = dataPackets f frame := by
  unfold dataPackets
  constructor
  · intro h
    cases h with
    | short h => rw [if_pos h]
    | long h => rw [if_neg (Nat.not_le_of_lt h)]
  · rintro rfl
    split
    · exact .short ‹_›
    · exact .long (Nat.lt_of_not_le ‹_›)

theorem padsRow_iff {part : Part f} {a : FrameAddress f} {padding : List (Packet f)} :
    PadsRow part a padding ↔ padding = List.replicate (part.paddingAfter a) (.zeroPad f) := by
  unfold Part.paddingAfter Part.endsRow
  constructor
  · intro h
    cases h with
    | last h => rw [h, if_pos rfl]
    | crossing h hcross => rw [h, if_pos hcross]
    | within h hcross =>
      rw [h, if_neg hcross]
      rfl
  · rintro rfl
    cases hnext : part.next? a with
    | none => exact .last hnext
    | some next =>
      dsimp only
      split
      · exact .crossing hnext ‹_›
      · exact .within hnext ‹_›

/-- **A list of frames has one description**: the packets of one frame after the other. -/
theorem describes_iff {part : Part f} {frames : List (FrameAddress f × List Word)}
    {packets : List (Packet f)} :
    Describes part frames packets ↔
      packets = frames.flatMap fun (a, frame) => framePackets part a frame := by
  constructor
  · intro h
    induction h with
    | nil => rfl
    | cons hdata hpadding _ ih =>
      rw [carriesFrame_iff.1 hdata, padsRow_iff.1 hpadding, ih]
      rfl
  · rintro rfl
    induction frames with
    | nil => exact .nil
    | cons entry frames ih => exact .cons (carriesFrame_iff.2 rfl) (padsRow_iff.2 rfl) ih

namespace Packetizer

/-! ## Calls -/

/-- The packetizer after a number of calls. -/
def after (z : Packetizer f) : Nat → Packetizer f
  | 0 => z
  | calls + 1 => (z.after calls).next.2

theorem pending_after (z : Packetizer f) (calls : Nat) :
    (z.after calls).pending = z.pending.drop calls := by
  induction calls with
  | zero => rfl
  | succ calls ih => rw [after, (next_eq _).2, ih, List.tail_drop]

theorem next_after (z : Packetizer f) (calls : Nat) :
    (z.after calls).next.1 = z.pending[calls]? := by
  rw [(next_eq _).1, pending_after, List.head?_drop]

/-- **A packetizer draws the description of its frames.**  For any list of frames, whatever their
addresses and lengths, there is one run of packets that describes it.  The packetizer draws that run
and ends: each call yields the packet of its number, and every call from the end of the run on
yields none. -/
theorem draw_ofFrames (part : Part f) (frames : List (FrameAddress f × List Word)) :
    ∃ packets : List (Packet f),
      (∀ described, Describes part frames described ↔ described = packets) ∧
        (ofFrames part frames).drawAll = packets ∧
        ∀ calls, ((ofFrames part frames).after calls).next.1 = packets[calls]? ∧
          (((ofFrames part frames).after calls).next.1 = none ↔ packets.length ≤ calls) := by
  have hpending : (ofFrames part frames).pending =
      frames.flatMap fun (a, frame) => framePackets part a frame := rfl
  refine ⟨_, fun described => describes_iff, ?_, fun calls => ?_⟩
  · rw [drawAll, drawOnto_eq, hpending]
    rfl
  · rw [next_after, hpending]
    exact ⟨rfl, List.getElem?_eq_none_iff⟩

end Packetizer
end FpgaBitstream
