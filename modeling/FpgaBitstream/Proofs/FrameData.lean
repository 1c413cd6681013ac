import FpgaBitstream.Proofs.Replay

/-!
# Frame data, frame by frame

Where a piece of frame data goes can be said without the loop that stores it.  The `k`-th address
from the start is reached by `k` steps of the part (`Part.advance?`), and its frame stands behind
`k` others and behind two frames of padding for each row that was left on the way
(`Part.frameIndex`).  If the data reaches that far, the address gets these words
(`Part.assignment?`).  A run of frame data writes exactly these assignments, one after the other
(`Replay.frames_fill`), so where an address comes again the last one stays
(`Replay.replay_frameData`).
-/

namespace FpgaBitstream

variable {f : Family}

/-! ## The reference -/

namespace Part

variable {part : Part f} {a b : FrameAddress f}

/-- The address that `count` steps lead to, if the part goes on for so long. -/
def advance? (part : Part f) (a : FrameAddress f) : Nat → Option (FrameAddress f)
  | 0 => some a
  | count + 1 => (part.advance? a count).bind part.next?

/-- Whether the next step leads into another row. -/
def leavesRow (part : Part f) (a : FrameAddress f) (count : Nat) : Bool :=
  (part.advance? a count).any fun b => (part.next? b).any b.crossesRow

/-- The number of rows left in the first `count` steps. -/
def rowsLeft (part : Part f) (a : FrameAddress f) (count : Nat) : Nat :=
  (List.range count).countP (part.leavesRow a)

/-- The frame of the data that is for the address after `count` steps: each row left on the way
took two frames of padding. -/
def frameIndex (part : Part f) (a : FrameAddress f) (count : Nat) : Nat :=
  count + 2 * part.rowsLeft a count

/-- What the data assigns to the address after `count` steps, if there is such an address and the
data holds all of its frame. -/
def assignment? (part : Part f) (a : FrameAddress f) (data : List Word) (count : Nat) :
    Option (FrameAddress f × List Word) :=
  (part.advance? a count).bind fun b =>
    let index := part.frameIndex a count
    if (index + 1) * f.wordsPerFrame ≤ data.length then
      some (b, (data.drop (index * f.wordsPerFrame)).take f.wordsPerFrame)
    else none

/-- The assignments of the data to the first `count` addresses. -/
def assignments (part : Part f) (a : FrameAddress f) (data : List Word) (count : Nat) :
    List (FrameAddress f × List Word) :=
  (List.range count).filterMap (part.assignment? a data)

/-! ### One step further -/

theorem advance?_succ (part : Part f) (a : FrameAddress f) (count : Nat) :
    part.advance? a (count + 1) = (part.next? a).bind (part.advance? · count) := by
  induction count with
  | zero =>
    show (some a).bind part.next? = (part.next? a).bind some
    rw [Option.bind_some, Option.bind_fun_some]
  | succ count ih =>
    rw [advance?, ih, Option.bind_assoc]
    rfl

theorem frameIndex_zero (part : Part f) (a : FrameAddress f) : part.frameIndex a 0 = 0 := rfl

/-- The first step passes over one frame, and over three where it leaves a row. -/
theorem frameIndex_succ (h : part.next? a = some b) (count : Nat) :
    part.frameIndex a (count + 1) =
      (if a.crossesRow b then 3 else 1) + part.frameIndex b count := by
  have hfirst : part.leavesRow a 0 = a.crossesRow b := by
    simp [leavesRow, advance?, h]
  have hrest (i : Nat) : part.leavesRow a (i + 1) = part.leavesRow b i := by
    rw [leavesRow, advance?_succ, h, Option.bind_some, leavesRow]
  have hcount : part.rowsLeft a (count + 1) =
      part.rowsLeft b count + if a.crossesRow b then 1 else 0 := by
    rw [rowsLeft, List.range_succ_eq_map, List.countP_cons, hfirst, List.countP_map]
    congr 2
    exact funext hrest
  rw [frameIndex, hcount, frameIndex]
  split <;> omega

theorem assignment?_zero (part : Part f) (a : FrameAddress f) {data : List Word}
    (h : f.wordsPerFrame ≤ data.length) :
    part.assignment? a data 0 = some (a, data.take f.wordsPerFrame) := by
  simp [assignment?, advance?, frameIndex_zero, h]

/-- Behind the last frame nothing is assigned. -/
theorem assignment?_succ_of_none (h : part.next? a = none) (data : List Word) (count : Nat) :
    part.assignment? a data (count + 1) = none := by
  rw [assignment?, advance?_succ, h]
  rfl

/-- From the next address on the assignments are those of the data that was not yet passed. -/
theorem assignment?_succ (h : part.next? a = some b) (data : List Word) (count : Nat) :
    part.assignment? a data (count + 1) =
      part.assignment? b
        (data.drop ((if a.crossesRow b then 3 else 1) * f.wordsPerFrame)) count := by
  have hbound (passed index : Nat) : (passed + index + 1) * f.wordsPerFrame ≤ data.length ↔
      (index + 1) * f.wordsPerFrame ≤ data.length - passed * f.wordsPerFrame := by
    have hpos : 0 < (index + 1) * f.wordsPerFrame := Nat.mul_pos (by omega) f.wordsPerFrame_pos
    rw [Nat.add_assoc, Nat.add_mul passed]
    omega
  simp only [assignment?, advance?_succ, h, Option.bind_some, frameIndex_succ h, hbound,
    List.length_drop, List.drop_drop, ← Nat.add_mul]

/-- Data too short for a frame assigns nothing. -/
theorem assignment?_of_short {data : List Word} (h : data.length < f.wordsPerFrame)
    (part : Part f) (a : FrameAddress f) (count : Nat) :
    part.assignment? a data count = none := by
  have hlong : ¬ (part.frameIndex a count + 1) * f.wordsPerFrame ≤ data.length := by
    rw [Nat.succ_mul]
    omega
  simp [assignment?, hlong]

theorem assignments_of_short {data : List Word} (h : data.length < f.wordsPerFrame)
    (part : Part f) (a : FrameAddress f) (count : Nat) : part.assignments a data count = [] :=
  List.filterMap_eq_nil_iff.2 fun k _ => assignment?_of_short h part a k

theorem assignments_succ_of_none (h : part.next? a = none) {data : List Word}
    (hlength : f.wordsPerFrame ≤ data.length) (count : Nat) :
    part.assignments a data (count + 1) = [(a, data.take f.wordsPerFrame)] := by
  rw [assignments, List.range_succ_eq_map,
    List.filterMap_cons_some (assignment?_zero part a hlength), List.filterMap_map]
  exact congrArg _ (List.filterMap_eq_nil_iff.2 fun k _ => assignment?_succ_of_none h data k)

theorem assignments_succ (h : part.next? a = some b) {data : List Word}
    (hlength : f.wordsPerFrame ≤ data.length) (count : Nat) :
    part.assignments a data (count + 1) = (a, data.take f.wordsPerFrame) ::
      part.assignments b
        (data.drop ((if a.crossesRow b then 3 else 1) * f.wordsPerFrame)) count := by
  rw [assignments, List.range_succ_eq_map,
    List.filterMap_cons_some (assignment?_zero part a hlength), List.filterMap_map]
  exact congrArg _ (List.filterMap_congr fun k _ => assignment?_succ h data k)

/-- No more addresses get a frame than the data has words. -/
theorem lt_length_of_assignment? {data : List Word} {count : Nat}
    {entry : FrameAddress f × List Word} (h : part.assignment? a data count = some entry) :
    count < data.length := by
  obtain ⟨b, -, hentry⟩ := Option.bind_eq_some_iff.1 h
  simp only at hentry
  split at hentry
  case isFalse => cases hentry
  case isTrue hlong =>
    have hindex : count ≤ part.frameIndex a count := Nat.le_add_right _ _
    have hmul : part.frameIndex a count + 1 ≤ (part.frameIndex a count + 1) * f.wordsPerFrame :=
      Nat.le_mul_of_pos_right _ f.wordsPerFrame_pos
    omega

end Part

namespace Replay

variable {part : Part f}

/-! ## The loop -/

/-- **A run of frame data** writes the assignments of the data from the cursor on. -/
theorem frames_fill (part : Part f) (data : List Word) (s : State f) :
    ∀ count, data.length ≤ count →
      (s.fill part data).frames = s.frames.insertAll (part.assignments s.cursor data count) := by
  have hpos := f.wordsPerFrame_pos
  have hlengthOf {data : List Word} (h : ¬ (data.take f.wordsPerFrame).length < f.wordsPerFrame) :
      f.wordsPerFrame ≤ data.length := by
    rw [List.length_take] at h
    omega
  fun_induction State.fill part data s with
  | case1 data s frame hshort =>
    intro count _
    have hshort : data.length < f.wordsPerFrame := by
      simp only [frame, List.length_take] at hshort
      omega
    rw [Part.assignments_of_short hshort, SortedMap.insertAll_nil]
  | case2 data s frame hlong s₁ hlast =>
    intro count hcount
    have hlength := hlengthOf hlong
    obtain ⟨count, rfl⟩ := Nat.exists_eq_add_one_of_ne_zero (show count ≠ 0 by omega)
    have hlast : part.next? s.cursor = none := hlast
    rw [Part.assignments_succ_of_none hlast hlength]
    rfl
  | case3 data s frame hlong s₁ next hnext passed ih =>
    intro count hcount
    have hlength := hlengthOf hlong
    obtain ⟨count, rfl⟩ := Nat.exists_eq_add_one_of_ne_zero (show count ≠ 0 by omega)
    have hnext : part.next? s.cursor = some next := hnext
    rw [Part.assignments_succ hnext hlength]
    have hpassed : f.wordsPerFrame ≤ passed * f.wordsPerFrame := by
      refine Nat.le_mul_of_pos_left _ ?_
      simp only [passed]
      split <;> decide
    refine ih count ?_
    rw [List.length_drop]
    omega

/-- **Frame data, frame by frame.**  An address, the command to write the configuration, and data
behind them, under headers of any type: each address from the first on gets the words at its frame
of the data, as long as there is an address and the data holds all of its frame, and where an
address comes again the last one stays.  No other words of the data have an effect. -/
theorem replay_frameData (part : Part f) (a : FrameAddress f) (data : List Word)
    (h₁ h₂ h₃ : HeaderType) :
    ∃ frames,
      replay part [{ Packet.frameAddress a with header := h₁ },
        { Packet.command f .writeConfig with header := h₂ },
        ⟨h₃, .write, .frameDataInput f, data⟩] = some frames ∧
      ∀ b words, frames.get? b = some words ↔
        ∃ k, part.assignment? a data k = some (b, words) ∧
          ∀ l, k < l → ∀ later, part.assignment? a data l ≠ some (b, later) := by
  let s : State f := (State.initial.setFrameAddress a.raw).requestRun.setCommand .writeConfig
  have hbegin : s.beginRun = { s with cursor := a, startsRun := false } :=
    if_pos (Bool.or_true _)
  have haddress : step part .initial { Packet.frameAddress a with header := h₁ } =
      some (State.initial.setFrameAddress a.raw).requestRun := step_frameAddress a .initial
  have hcommand (t : State f) :
      step part t { Packet.command f .writeConfig with header := h₂ } =
        some (t.setCommand .writeConfig) := step_command .writeConfig t
  refine ⟨(s.beginRun.fill part data).frames, ?_, fun b words => ?_⟩
  · rw [replay, run_cons, haddress, Option.bind_some, run_cons, hcommand, Option.bind_some,
      run_cons, step_frameData rfl rfl]
    rfl
  · rw [frames_fill part data s.beginRun data.length (Nat.le_refl _), hbegin]
    refine (SortedMap.get?_insertAll_filterMap_range _ _).trans ⟨?_, ?_⟩
    · rintro ⟨k, -, hentry, hlater⟩
      refine ⟨k, hentry, fun l hl later hentry' => ?_⟩
      exact hlater l hl (Part.lt_length_of_assignment? hentry') later hentry'
    · rintro ⟨k, hentry, hlater⟩
      exact ⟨k, Part.lt_length_of_assignment? hentry, hentry, fun l hl _ => hlater l hl⟩

/-- Three rows of which the second has no frames: between the others one row boundary is crossed. -/
example : (List.range 4).map ((⟨0, .ranges ⟨[⟨0, 2, by decide⟩, ⟨0x40000, 0x40002, by decide⟩],
    by decide⟩⟩ : Part .series7).frameIndex ⟨0⟩) = [0, 1, 4, 5] := by decide

end Replay
end FpgaBitstream
