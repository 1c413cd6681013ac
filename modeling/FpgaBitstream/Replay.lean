import FpgaBitstream.Frames
import FpgaBitstream.Packet

/-!
# Replay

Replay runs packets through a model of the registers that matter for frame data and collects the
frames that are written. `Replay.State` is what the model remembers, `Replay.step` the effect of
one packet and `replay` that of a whole stream, which fails when an IDCODE write names another
device.
-/

namespace FpgaBitstream

/-- The registers of the configuration logic and the frames written so far. -/
structure Replay.State (f : Family) where
  /-- The last command. -/
  command : Command
  /-- The bits of the control register that a write may change. -/
  mask : Word
  control : Word
  /-- The frame address register. -/
  frameAddress : FrameAddress f
  /-- Where the next frame of data goes, once a run has started. -/
  cursor : FrameAddress f
  /-- Whether the next frame data starts a new run at the frame address. -/
  startsRun : Bool
  /-- Whether multiple frame writes are enabled. -/
  copies : Bool
  /-- The address of the last frame that came as data. -/
  lastWritten : Option (FrameAddress f)
  frames : Frames f
  deriving DecidableEq, Repr

namespace Replay

variable {f : Family}

namespace State

/-- The state before the first packet. -/
def initial : State f where
  command := .null
  mask := 0
  control := 0
  frameAddress := ⟨0⟩
  cursor := ⟨0⟩
  startsRun := false
  copies := false
  lastWritten := none
  frames := .empty

/-- Whether the control register keeps address writes from starting a run. -/
def inhibited (s : State f) : Bool := f.inhibitBit.any s.control.getLsbD

/-- The state after a command. -/
def setCommand (s : State f) (c : Command) : State f :=
  { s with
    command := c
    startsRun := s.startsRun || c = .writeConfig
    copies := s.copies || c = .multiFrameWrite }

/-- The state after the frame address register was loaded. -/
def setFrameAddress (s : State f) (raw : Word) : State f := { s with frameAddress := ⟨raw⟩ }

/-- Asks for a new run. The request counts while frame data is being written and is not
inhibited. -/
def requestRun (s : State f) : State f :=
  { s with startsRun := s.startsRun || (!s.inhibited && s.command = .writeConfig) }

/-- Starts a new run if one was asked for. -/
def beginRun (s : State f) : State f :=
  if s.startsRun then { s with cursor := s.frameAddress, startsRun := false } else s

/-- Stores one frame at the cursor. -/
def store (s : State f) (frame : List Word) : State f :=
  { s with frames := s.frames.insert s.cursor frame, lastWritten := some s.cursor }

/-- Stores the frames of a run of data. Behind the last frame of a row two frames of padding are
passed over; words behind the last frame of the part, or too few for a frame, are dropped. -/
def fill (part : Part f) (words : List Word) (s : State f) : State f :=
  let frame := words.take f.wordsPerFrame
  if frame.length < f.wordsPerFrame then s
  else
    let s := s.store frame
    match part.next? s.cursor with
    | none => s
    | some next =>
      let passed := if s.cursor.crossesRow next then 3 else 1
      fill part (words.drop (passed * f.wordsPerFrame)) { s with cursor := next }
termination_by words.length
decreasing_by
  have enough : ¬ (words.take f.wordsPerFrame).length < f.wordsPerFrame := ‹_›
  have := f.wordsPerFrame_pos
  simp only [List.length_take, List.length_drop] at *
  split <;> omega

/-- Copies the last frame that came as data to the frame address. -/
def copy (s : State f) : State f :=
  match s.lastWritten.bind s.frames.get? with
  | some frame => { s with frames := s.frames.insert s.frameAddress frame }
  | none => s

end State

/-- Two words of 16 bits as one, the high half first. -/
def joinHalves (high low : Word) : Word := ((high &&& 0xFFFF) <<< 16) ||| (low &&& 0xFFFF)

/-- The device identifier that an IDCODE write carries, if it has enough words. -/
def idcode? : Family → List Word → Option Word
  | .spartan6, high :: low :: _ => some (joinHalves high low)
  | .spartan6, _ => none
  | _, word :: _ => some word
  | _, [] => none

/-- The effect of writing words to a register. The IDCODE of another device ends the replay. -/
def write (part : Part f) (s : State f) : RegisterRole → List Word → Option (State f)
  | .mask, value :: _ => some { s with mask := value }
  | .control, value :: _ => some { s with control := value &&& s.mask }
  | .command, value :: _ => some (s.setCommand ⟨value⟩)
  | .idcode, data =>
    match idcode? f data with
    | some idcode => if idcode = part.idcode then some s else none
    | none => some s
  | .frameAddress, raw :: _ => some (s.setFrameAddress raw).requestRun
  | .frameAddressMajor, [major] => some (s.setFrameAddress ((major &&& 0xFFFF) <<< 16))
  | .frameAddressMajor, major :: minor :: _ =>
    some (s.setFrameAddress (joinHalves major minor)).requestRun
  | .frameAddressMinor, minor :: _ =>
    some (s.setFrameAddress ((s.frameAddress.raw &&& ~~~0x3FF) ||| (minor &&& 0x3FF))).requestRun
  | .frameDataInput, data => some (s.beginRun.fill part data)
  | .multiFrameWrite, _ => some (if s.copies then s.copy else s)
  | _, _ => some s

/-- The effect of one packet. Only writes have any. -/
def step (part : Part f) (s : State f) (p : Packet f) : Option (State f) :=
  if p.opcode = .write then write part s p.register.role p.data else some s

/-- The effect of a run of packets. -/
def run (part : Part f) (s : State f) (packets : List (Packet f)) : Option (State f) :=
  packets.foldlM (step part) s

end Replay

/-- The frames that a run of packets writes to a part, unless an IDCODE write names another
device. -/
def replay {f : Family} (part : Part f) (packets : List (Packet f)) : Option (Frames f) :=
  (Replay.run part .initial packets).map (·.frames)

end FpgaBitstream
