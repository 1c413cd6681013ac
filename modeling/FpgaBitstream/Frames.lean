import FpgaBitstream.Ecc
import FpgaBitstream.Part

/-!
# Frame sets

A `Frames f` holds the words of frames by address. Against a part it can be filled up with zero
frames (`addMissing`), laid out as one payload in the order of configuration (`assemblePayload`)
or cut into runs of neighbouring frames (`segments`).
-/

namespace FpgaBitstream

/-- The words of frames, by address. -/
abbrev Frames (f : Family) := SortedMap (FrameAddress f) (List Word)

/-- A run of frame data, and the address of its first frame. -/
structure Segment (f : Family) where
  start : FrameAddress f
  payload : List Word
  deriving DecidableEq, Repr

/-- Each element of a list with the one behind it. -/
def withNext {α : Type} (elements : List α) : List (α × Option α) :=
  elements.zip (elements.tail.map some ++ [none])

/-- The frame of zeros. -/
def Family.zeroFrame (f : Family) : List Word := List.replicate f.wordsPerFrame 0

namespace Frames

variable {f : Family}

/-- The frames whose addresses satisfy a test. -/
def retain (keep : FrameAddress f → Bool) (frames : Frames f) : Frames f :=
  frames.filter fun a _ => keep a

/-- The frames with the error-correcting code of each recomputed. -/
def updateEcc (frames : Frames f) : Frames f := frames.map fun _ words => Ecc.update f words

/-- The frames of the part that the set lacks. -/
def missing (part : Part f) (frames : Frames f) : List (FrameAddress f) :=
  part.addresses.filter fun a => !frames.contains a

/-- The set with a zero frame for every frame of the part that it lacks. -/
def addMissing (part : Part f) (frames : Frames f) : Frames f :=
  (frames.missing part).foldl (fun frames a => frames.insert a f.zeroFrame) frames

/-- The words of a frame, zeros if the set lacks it. -/
def wordsAt (frames : Frames f) (a : FrameAddress f) : List Word :=
  (frames.get? a).getD f.zeroFrame

/-- The words of the part's frames in the order of configuration. Two zero frames follow the last
frame of each row, and the last of all. -/
def assemblePayload (part : Part f) (frames : Frames f) : List Word :=
  (withNext part.addresses).flatMap fun (a, next) =>
    if next.all a.crossesRow then frames.wordsAt a ++ f.zeroFrame ++ f.zeroFrame
    else frames.wordsAt a

/-- Whether the configuration logic goes from the first address to the second without leaving the
row. -/
def continues (part : Part f) (a b : FrameAddress f) : Bool :=
  part.next? a = some b && !a.crossesRow b

/-- The frames cut into runs that the configuration logic writes one after the other within a
row. -/
def segments (part : Part f) (frames : Frames f) : List (Segment f) :=
  (frames.toList.splitBy fun x y => continues part x.1 y.1).filterMap fun run =>
    run.head?.map fun first => ⟨first.1, run.flatMap (·.2)⟩

end Frames

end FpgaBitstream
