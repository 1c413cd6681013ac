import FpgaBitstream.Frames
import FpgaBitstream.Packet

/-!
# Packetizing

A `Packetizer` turns frames into packets one at a time: for each frame a write of its address, the
frame as data, and two frames of zero padding where the row ends behind it. `next` draws a packet
and `drawAll` all that are left; `framePackets` describes the packets of one frame at once.
-/

namespace FpgaBitstream

variable {f : Family}

/-- Where a packetizer stands: in front of the next frame, behind the address of a frame, behind the
empty type-1 packet of a frame that is too long for one, behind the data of a frame, within padding,
or at the end. -/
inductive Packetizer.State (f : Family) where
  | start
  | addressWritten (a : FrameAddress f) (frame : List Word)
  | longHeaderWritten (a : FrameAddress f) (frame : List Word)
  | dataWritten (a : FrameAddress f)
  | padding (remaining : Nat)
  | finished
  deriving DecidableEq, Repr

/-- The frames still to be written, and the place within the current one. -/
structure Packetizer (f : Family) where
  part : Part f
  state : Packetizer.State f
  frames : List (FrameAddress f × List Word)
  deriving DecidableEq, Repr

/-- Whether the frame of an address is the last one of its row. -/
def Part.endsRow (part : Part f) (a : FrameAddress f) : Bool :=
  match part.next? a with
  | some next => a.crossesRow next
  | none => true

/-- The number of padding words behind the frame of an address. -/
def Part.paddingAfter (part : Part f) (a : FrameAddress f) : Nat :=
  if part.endsRow a then 2 * f.wordsPerFrame else 0

namespace Packetizer

/-- The packetizer of a list of frames. -/
def ofFrames (part : Part f) (frames : List (FrameAddress f × List Word)) : Packetizer f :=
  ⟨part, .start, frames⟩

/-- The number of states that may be passed through before a packet is drawn. -/
def State.detours : State f → Nat
  | dataWritten _ => 2
  | padding _ => 1
  | _ => 0

/-- A call: the next packet, if there is one, and the packetizer behind it. -/
def next : Packetizer f → Option (Packet f) × Packetizer f
  | ⟨part, .start, []⟩ => (none, ⟨part, .finished, []⟩)
  | ⟨part, .start, (a, frame) :: frames⟩ =>
    (some (.frameAddress a), ⟨part, .addressWritten a frame, frames⟩)
  | ⟨part, .addressWritten a frame, frames⟩ =>
    if frame.length ≤ f.maxType1Words then
      (some (.write (.frameDataInput f) frame), ⟨part, .dataWritten a, frames⟩)
    else (some (.write (.frameDataInput f) []), ⟨part, .longHeaderWritten a frame, frames⟩)
  | ⟨part, .longHeaderWritten a frame, frames⟩ =>
    (some (.longWrite (.frameDataInput f) frame), ⟨part, .dataWritten a, frames⟩)
  | ⟨part, .dataWritten a, frames⟩ =>
    if part.endsRow a then next ⟨part, .padding (2 * f.wordsPerFrame), frames⟩
    else next ⟨part, .start, frames⟩
  | ⟨part, .padding 0, frames⟩ => next ⟨part, .start, frames⟩
  | ⟨part, .padding (remaining + 1), frames⟩ =>
    (some (.zeroPad f), ⟨part, .padding remaining, frames⟩)
  | ⟨part, .finished, frames⟩ => (none, ⟨part, .finished, frames⟩)
termination_by z => z.state.detours
decreasing_by all_goals simp [State.detours]

/-- An upper bound on the number of packets still to be drawn. -/
def bound (z : Packetizer f) : Nat :=
  let padding := 2 * f.wordsPerFrame
  (match z.state with
    | .start | .finished => 0
    | .addressWritten _ _ => 2 + padding
    | .longHeaderWritten _ _ => 1 + padding
    | .dataWritten _ => padding
    | .padding remaining => remaining) + z.frames.length * (3 + padding)

/-- Drawing a packet brings the end nearer. -/
theorem bound_next_lt (z : Packetizer f) (h : z.next.1.isSome) : z.next.2.bound < z.bound := by
  fun_induction next z with
  | case1 | case10 => cases h
  | case6 _ _ _ _ ih | case8 _ _ ih => exact ih h
  | case7 _ _ _ _ ih =>
    refine Nat.lt_of_lt_of_le (ih h) ?_
    simp only [bound]
    omega
  | case2 | case3 | case4 | case5 | case9 =>
    simp only [bound, List.length_cons, Nat.succ_mul]
    omega

/-- The packets still to be drawn, behind `done`, which holds the packets before them in
reverse. -/
def drawOnto (done : List (Packet f)) (z : Packetizer f) : List (Packet f) :=
  match _ : z.next with
  | (some p, z') => drawOnto (p :: done) z'
  | (none, _) => done.reverse
termination_by z.bound
decreasing_by
  have hlt := bound_next_lt z
  rw [‹z.next = _›] at hlt
  exact hlt rfl

/-- The packets still to be drawn. -/
def drawAll (z : Packetizer f) : List (Packet f) := drawOnto [] z

end Packetizer

/-- The packets that carry the data of a frame: one of type 1, or an empty one and one of type 2
where the frame is too long for it. -/
def dataPackets (f : Family) (frame : List Word) : List (Packet f) :=
  if frame.length ≤ f.maxType1Words then [.write (.frameDataInput f) frame]
  else [.write (.frameDataInput f) [], .longWrite (.frameDataInput f) frame]

/-- The packets of one frame. -/
def framePackets (part : Part f) (a : FrameAddress f) (frame : List Word) : List (Packet f) :=
  .frameAddress a ::
    (dataPackets f frame ++ List.replicate (part.paddingAfter a) (.zeroPad f))

/-- The packets that write each frame of a set by itself. -/
def Frames.packetize (part : Part f) (frames : Frames f) : List (Packet f) :=
  (Packetizer.ofFrames part frames.toList).drawAll

end FpgaBitstream
