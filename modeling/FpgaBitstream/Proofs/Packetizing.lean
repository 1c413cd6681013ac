import FpgaBitstream.Packetizer
import FpgaBitstream.Proofs.Replay

/-!
# Packetized frames are written where they belong

A packetizer always draws the first of the packets that are pending, so all that it draws is the
packets of one frame after the other (`packetize_eq`).  While frame data is being written and no
run is inhibited, the packets of a frame insert exactly that frame (`Ready.run_framePackets`), and
those of a whole set write the set (`replay_packetize`).
-/

namespace FpgaBitstream

variable {f : Family}

/-! ## What a packetizer draws -/

namespace Packetizer

/-- The packets that are still to be drawn. -/
def pending : Packetizer f → List (Packet f)
  | ⟨part, state, frames⟩ =>
    let rest := frames.flatMap fun (a, frame) => framePackets part a frame
    let padding (a : FrameAddress f) := List.replicate (part.paddingAfter a) (.zeroPad f)
    match state with
    | .start => rest
    | .addressWritten a frame => dataPackets f frame ++ padding a ++ rest
    | .longHeaderWritten a frame =>
      .longWrite (.frameDataInput f) frame :: (padding a ++ rest)
    | .dataWritten a => padding a ++ rest
    | .padding remaining => List.replicate remaining (.zeroPad f) ++ rest
    | .finished => []

/-- **A call** draws the first packet that is pending, and the others stay pending. -/
theorem next_eq (z : Packetizer f) :
    z.next.1 = z.pending.head? ∧ z.next.2.pending = z.pending.tail := by
  fun_induction next z with
  | case1 | case2 | case5 | case9 | case10 => exact ⟨rfl, rfl⟩
  | case3 part a frame frames hshort =>
    have hdata : dataPackets f frame = [.write (.frameDataInput f) frame] := if_pos hshort
    simp only [pending, hdata]
    exact ⟨rfl, rfl⟩
  | case4 part a frame frames hlong =>
    have hdata : dataPackets f frame =
        [.write (.frameDataInput f) [], .longWrite (.frameDataInput f) frame] := if_neg hlong
    simp only [pending, hdata]
    exact ⟨rfl, rfl⟩
  -- no packet is drawn between these states, and the same packets are pending in both
  | case6 part a frames hends ih =>
    have hpadding : part.paddingAfter a = 2 * f.wordsPerFrame := if_pos hends
    simpa only [pending, hpadding] using ih
  | case7 part a frames hends ih =>
    have hpadding : part.paddingAfter a = 0 := if_neg hends
    simpa only [pending, hpadding, List.replicate_zero, List.nil_append] using ih
  | case8 part frames ih => exact ih

theorem drawOnto_eq (done : List (Packet f)) (z : Packetizer f) :
    drawOnto done z = done.reverse ++ z.pending := by
  fun_induction drawOnto done z with
  | case1 done z p z' h ih =>
    obtain ⟨hhead, htail⟩ := next_eq z
    rw [h] at hhead htail
    have hpending : z.pending = p :: z'.pending := by
      rw [htail]
      exact List.eq_cons_of_mem_head? hhead.symm
    rw [ih, hpending, List.reverse_cons, List.append_assoc, List.singleton_append]
  | case2 done z z' h =>
    obtain ⟨hhead, -⟩ := next_eq z
    rw [h] at hhead
    rw [List.head?_eq_none_iff.1 hhead.symm, List.append_nil]

end Packetizer

/-- **The packets of a set** are those of each frame, in the order of the addresses. -/
theorem Frames.packetize_eq (part : Part f) (frames : Frames f) :
    frames.packetize part =
      frames.toList.flatMap fun (a, frame) => framePackets part a frame := by
  rw [Frames.packetize, Packetizer.drawAll, Packetizer.drawOnto_eq]
  rfl

/-! ## Packets of a frame in a stream -/

theorem register_frameDataInput_lt (f : Family) :
    (Register.frameDataInput f).raw.toNat < 2 ^ f.headerLayout.register.width := by
  cases f <;> decide

/-- A frame is no longer than a payload may be. -/
theorem Family.wordsPerFrame_lt_longLimit (f : Family) : f.wordsPerFrame < f.longLimit := by
  cases f <;> decide

open Packet in
/-- An empty write and a long one behind it can be sent. -/
theorem sendable_emptyThenLong {data : List Word} (hdata : ∀ word ∈ data, f.Holds word)
    (hlong : data.length < f.longLimit) (previous : Option (Packet f)) :
    Sendable previous [write (.frameDataInput f) [], longWrite (.frameDataInput f) data] :=
  .cons (fits_write (register_frameDataInput_lt f) nofun (Nat.zero_le _))
    (follows_of_ne (header_write_ne _ _) _)
    (.cons (fits_longWrite (register_frameDataInput_lt f) hdata hlong) (fun _ _ => rfl) .nil)

open Packet in
theorem sendable_framePackets (part : Part f) (a : FrameAddress f) {frame : List Word}
    (hframe : f.IsFrame frame) (previous : Option (Packet f)) :
    Sendable previous (framePackets part a frame) := by
  obtain ⟨haddress, htype⟩ := fits_frameAddress a
  have hpadding (previous : Option (Packet f)) :
      Sendable previous (List.replicate (part.paddingAfter a) (zeroPad f)) := by
    refine sendable_of_ne (fun p hmem => ?_) previous
    rw [List.eq_of_mem_replicate hmem]
    exact ⟨fits_zeroPad f, show HeaderType.type0 ≠ .type2 by decide⟩
  refine .cons haddress (follows_of_ne htype _) (Sendable.append ?_ hpadding)
  unfold dataPackets
  split
  · exact .cons (fits_write (register_frameDataInput_lt f) hframe.holds ‹_›)
      (follows_of_ne (header_write_ne _ _) _) .nil
  · exact sendable_emptyThenLong hframe.holds
      (Nat.lt_of_le_of_lt (Nat.le_of_eq hframe.length) f.wordsPerFrame_lt_longLimit) _

/-- The packets of a set of whole frames can be sent behind the command that starts the writing. -/
theorem sendable_packetize (part : Part f) {frames : Frames f} (h : frames.Whole) :
    Packet.Sendable none (.command f .writeConfig :: frames.packetize part) := by
  have hcommand : f.Holds Command.writeConfig.raw := by cases f <;> decide
  refine .cons (Packet.fits_command hcommand)
    (Packet.follows_of_ne (Packet.header_write_ne _ _) none) ?_
  rw [frames.packetize_eq]
  exact Packet.sendable_flatMap
    (fun entry hmem previous => sendable_framePackets part entry.1 (h entry hmem) previous) _

namespace Replay

variable {part : Part f} {s : State f}

/-! ## Packets of a frame in the replay -/

theorem run_dataPackets (frame : List Word) (s : State f) :
    run part s (dataPackets f frame) = some (s.beginRun.fill part frame) := by
  unfold dataPackets
  split
  · rw [run_cons, step_frameData rfl rfl]
    rfl
  · exact run_emptyThenLong frame s

/-- Frame data is being written, and every frame address starts a new run. -/
structure Ready (s : State f) : Prop where
  command : s.command = .writeConfig
  inhibited : s.inhibited = false

theorem ready_setCommand : Ready ((State.initial (f := f)).setCommand .writeConfig) := by
  refine ⟨rfl, ?_⟩
  cases f <;> rfl

/-- Data behind a frame address begins a run at it. -/
theorem Ready.beginRun_eq (hs : Ready s) (a : FrameAddress f) :
    (s.setFrameAddress a.raw).requestRun.beginRun =
      { (s.setFrameAddress a.raw).requestRun with cursor := a, startsRun := false } := by
  have hrun : (s.setFrameAddress a.raw).requestRun.startsRun = true := by
    have hinhibited : (s.setFrameAddress a.raw).inhibited = false := hs.inhibited
    have hcommand : (s.setFrameAddress a.raw).command = .writeConfig := hs.command
    rw [State.requestRun, hinhibited, hcommand]
    simp
  rw [State.beginRun, if_pos hrun]
  rfl

/-- **The packets of a frame insert that frame**, whatever was written before. -/
theorem Ready.run_framePackets (hs : Ready s) (a : FrameAddress f) {frame : List Word}
    (hframe : frame.length = f.wordsPerFrame) :
    ∃ s', run part s (framePackets part a frame) = some s' ∧ Ready s' ∧
      s'.frames = s.frames.insert a frame := by
  refine ⟨(s.setFrameAddress a.raw).requestRun.beginRun.fill part frame, ?_, ?_, ?_⟩
  · rw [framePackets, run_cons, step_frameAddress]
    show run part (s.setFrameAddress a.raw).requestRun (dataPackets f frame ++ _) = _
    rw [run_append, run_dataPackets]
    exact run_replicate (show Opcode.nop ≠ .write by decide) _ _
  · rw [fill_frame hframe, hs.beginRun_eq]
    exact ⟨hs.command, hs.inhibited⟩
  · rw [fill_frame hframe, hs.beginRun_eq]
    rfl

/-- The packets of a set write the set into the frames that are there. -/
theorem Ready.run_packetize (hs : Ready s) {frames : Frames f}
    (h : ∀ entry ∈ frames.toList, entry.2.length = f.wordsPerFrame) (part : Part f) :
    ∃ s', run part s (frames.packetize part) = some s' ∧
      s'.frames = s.frames.insertAll frames.toList := by
  have hstep (done : List (FrameAddress f × List Word)) (entry : FrameAddress f × List Word)
      (s₁ : State f) (hmem : entry ∈ frames.toList)
      (h₁ : Ready s₁ ∧ s₁.frames = s.frames.insertAll done) :
      ∃ s₂, run part s₁ (framePackets part entry.1 entry.2) = some s₂ ∧
        Ready s₂ ∧ s₂.frames = s.frames.insertAll (done ++ [entry]) := by
    obtain ⟨s₂, hrun, hs₂, hinsert⟩ := h₁.1.run_framePackets entry.1 (h entry hmem)
    refine ⟨s₂, hrun, hs₂, ?_⟩
    rw [hinsert, h₁.2, SortedMap.insertAll_append]
    rfl
  obtain ⟨s', hrun, -, hframes⟩ := run_flatMap (fun entry => framePackets part entry.1 entry.2)
    (fun done s' => Ready s' ∧ s'.frames = s.frames.insertAll done) ⟨hs, rfl⟩ hstep
  rw [frames.packetize_eq]
  exact ⟨s', hrun, hframes⟩

/-- **The packets of a set write exactly the set**, once the writing was started, whatever the words
of its frames are. -/
theorem replay_packetize {frames : Frames f}
    (h : ∀ entry ∈ frames.toList, entry.2.length = f.wordsPerFrame) (part : Part f) :
    replay part (.command f .writeConfig :: frames.packetize part) = some frames := by
  obtain ⟨s, hrun, hframes⟩ := ready_setCommand.run_packetize h part
  rw [replay, run_cons, step_command, Option.bind_some, hrun, Option.map_some, hframes]
  exact congrArg some (SortedMap.insertAll_toList frames)

/-- The packets of a set of whole frames write exactly the set. -/
theorem run_packetize_initial {frames : Frames f} (h : frames.Whole) (part : Part f) :
    ∃ s, run part .initial (.command f .writeConfig :: frames.packetize part) = some s ∧
      s.frames = frames :=
  Option.map_eq_some_iff.1 (replay_packetize (fun entry hmem => (h entry hmem).length) part)

end Replay
end FpgaBitstream
