import FpgaBitstream.Proofs.Replay
import FpgaBitstream.Proofs.Successor

/-!
# What every replay keeps

Whatever the packets, replay stores frames of full length only, and it stores them where the frame
address register pointed at some time (`Replay.Held`, listed by `Replay.heldAddresses`) or at frames
of the part.  The invariant is `Within`: the cursor and the addresses of all frames have a property
that the register always has and that the next address of the part keeps (`Within.step`,
`Within.run`).

The second part reads frame data the other way, by index into the data (`Replay.ByIndex`).  There a
read can leave the data, and the outcome says so; no replay does, and the frames are the same
(`ByIndex.replay_eq`).
-/

namespace FpgaBitstream

variable {f : Family}

namespace Replay

variable {part : Part f} {s s' : State f}

/-! ## The frame address register in the course of a run -/

/-- The frame address register holds an address at some point of a run. -/
inductive Held (part : Part f) : State f → List (Packet f) → FrameAddress f → Prop where
  | now (s : State f) (packets : List (Packet f)) : Held part s packets s.frameAddress
  | later {s t : State f} {p : Packet f} {rest : List (Packet f)} {a : FrameAddress f}
      (h : step part s p = some t) (hrest : Held part t rest a) : Held part s (p :: rest) a

/-- The addresses that the frame address register holds in the course of a run. -/
def heldAddresses (part : Part f) : State f → List (Packet f) → List (FrameAddress f)
  | s, [] => [s.frameAddress]
  | s, p :: rest => s.frameAddress ::
    match step part s p with
    | some t => heldAddresses part t rest
    | none => []

theorem mem_heldAddresses_iff {packets : List (Packet f)} {a : FrameAddress f} :
    a ∈ heldAddresses part s packets ↔ Held part s packets a := by
  constructor
  · intro h
    induction packets generalizing s with
    | nil =>
      obtain rfl := List.mem_singleton.1 h
      exact .now s []
    | cons p rest ih =>
      rcases List.mem_cons.1 h with rfl | h
      · exact .now s _
      · cases hstep : step part s p with
        | none =>
          simp only [hstep] at h
          cases h
        | some t =>
          simp only [hstep] at h
          exact .later hstep (ih h)
  · intro h
    induction h with
    | now s packets => cases packets <;> exact List.mem_cons_self
    | later hstep _ ih =>
      refine List.mem_cons_of_mem _ ?_
      simp only [hstep]
      exact ih

/-! ## The invariant -/

/-- The cursor and the addresses of all frames have a property, and all frames have full length. -/
structure Within (K : FrameAddress f → Prop) (s : State f) : Prop where
  cursor : K s.cursor
  frames : ∀ entry ∈ s.frames.toList, K entry.1 ∧ entry.2.length = f.wordsPerFrame

section Within
variable {K : FrameAddress f → Prop}

theorem Within.initial (h : K ⟨0⟩) : Within K (State.initial : State f) :=
  ⟨h, fun _ hmem => absurd hmem List.not_mem_nil⟩

theorem Within.insert {frames : Frames f}
    (h : ∀ entry ∈ frames.toList, K entry.1 ∧ entry.2.length = f.wordsPerFrame)
    {a : FrameAddress f} (ha : K a) {frame : List Word}
    (hframe : frame.length = f.wordsPerFrame) :
    ∀ entry ∈ (frames.insert a frame).toList, K entry.1 ∧ entry.2.length = f.wordsPerFrame := by
  intro entry hmem
  rcases SortedMap.mem_toList_insert hmem with rfl | hmem
  · exact ⟨ha, hframe⟩
  · exact h entry hmem

theorem Within.store (h : Within K s) {frame : List Word}
    (hframe : frame.length = f.wordsPerFrame) : Within K (s.store frame) :=
  ⟨h.cursor, Within.insert h.frames h.cursor hframe⟩

theorem Within.beginRun (h : Within K s) (ha : K s.frameAddress) : Within K s.beginRun := by
  unfold State.beginRun
  split
  · exact ⟨ha, h.frames⟩
  · exact h

theorem Within.copy (h : Within K s) (ha : K s.frameAddress) : Within K s.copy := by
  unfold State.copy
  cases hlast : s.lastWritten.bind s.frames.get? with
  | none => exact h
  | some frame =>
    obtain ⟨b, -, hget⟩ := Option.bind_eq_some_iff.1 hlast
    have hframe := h.frames (b, frame) (SortedMap.mem_toList_iff.2 hget)
    exact ⟨h.cursor, Within.insert h.frames ha hframe.2⟩

/-- A run of frame data takes the cursor from one address to the next. -/
theorem Within.fill (hnext : ∀ a b, K a → part.next? a = some b → K b) (words : List Word)
    (h : Within K s) : Within K (s.fill part words) := by
  fun_induction State.fill part words s with
  | case1 => exact h
  | case2 words s frame hlong _ _ =>
    exact h.store (Nat.le_antisymm (List.length_take_le _ _) (Nat.not_lt.1 hlong))
  | case3 words s frame hlong s₁ next hsome _ ih =>
    have hstore : Within K s₁ :=
      h.store (Nat.le_antisymm (List.length_take_le _ _) (Nat.not_lt.1 hlong))
    exact ih ⟨hnext _ _ hstore.cursor hsome, hstore.frames⟩

/-- **One packet** keeps the invariant, if the frame address register has the property. -/
theorem Within.step (hnext : ∀ a b, K a → part.next? a = some b → K b) (ha : K s.frameAddress)
    (h : Within K s) {p : Packet f} (hstep : step part s p = some s') : Within K s' := by
  unfold Replay.step at hstep
  split at hstep
  case isFalse =>
    obtain rfl := Option.some.inj hstep
    exact h
  case isTrue =>
    rcases write_cases hstep with ⟨hcursor, hframes⟩ | ⟨-, rfl⟩ | ⟨-, rfl⟩
    · exact ⟨hcursor ▸ h.cursor, hframes ▸ h.frames⟩
    · exact Within.fill hnext _ (h.beginRun ha)
    · split
      · exact h.copy ha
      · exact h

/-- **A whole run** keeps the invariant, if the frame address register has the property all
along. -/
theorem Within.run {packets : List (Packet f)} (hnext : ∀ a b, K a → part.next? a = some b → K b)
    (hheld : ∀ a, Held part s packets a → K a) (h : Within K s)
    (hrun : run part s packets = some s') : Within K s' := by
  induction packets generalizing s with
  | nil =>
    obtain rfl := Option.some.inj hrun
    exact h
  | cons p rest ih =>
    obtain ⟨s₁, hstep, hrest⟩ := Option.bind_eq_some_iff.1 hrun
    have h₁ := h.step hnext (hheld _ (.now s _)) hstep
    exact ih (fun a ha => hheld a (.later hstep ha)) h₁ hrest

end Within

/-! ## Reading by index -/

/-- Data was read behind its end. -/
structure OutOfBounds where
  start : Nat
  stop : Nat
  length : Nat
  deriving DecidableEq, Repr

namespace ByIndex

/-- The words from `start` up to `stop`, of data that reaches that far. -/
def slice (data : List Word) (start stop : Nat) : Except OutOfBounds (List Word) :=
  if start ≤ stop ∧ stop ≤ data.length then .ok ((data.drop start).take (stop - start))
  else .error ⟨start, stop, data.length⟩

/-- The word at an index. -/
def word (data : List Word) (i : Nat) : Except OutOfBounds Word :=
  match data[i]? with
  | some word => .ok word
  | none => .error ⟨i, i + 1, data.length⟩

/-- How far the index moves from one address to the next: past the frame, and past two frames of
padding behind a row. -/
def stride (a b : FrameAddress f) : Nat := if a.crossesRow b then 3 else 1

theorem stride_pos (a b : FrameAddress f) : 0 < stride a b := by
  unfold stride
  split <;> decide

/-- Stores the frames of a run of data from the frame `index` on, as long as there are whole
ones. -/
def fill (part : Part f) (data : List Word) (index : Nat) (s : State f) :
    Except OutOfBounds (State f) :=
  if index < data.length / f.wordsPerFrame then
    let start := index * f.wordsPerFrame
    match slice data start (start + f.wordsPerFrame) with
    | .error e => .error e
    | .ok frame =>
      match part.next? s.cursor with
      | none => .ok (s.store frame)
      | some next =>
        fill part data (index + stride s.cursor next) { s.store frame with cursor := next }
  else .ok s
termination_by data.length / f.wordsPerFrame - index
decreasing_by
  have := stride_pos s.cursor next
  omega

/-- The device identifier that an IDCODE write carries, if it has enough words. -/
def idcode? (f : Family) (data : List Word) : Except OutOfBounds (Option Word) :=
  if data.length < f.idcodeWords then .ok none
  else if f.idcodeWords = 2 then do
    return some (joinHalves (← word data 0) (← word data 1))
  else do
    return some (← word data 0)

/-- The effect of one packet. -/
def step (part : Part f) (s : State f) (p : Packet f) : Except OutOfBounds (Option (State f)) :=
  if p.opcode = .write then
    match p.register.role with
    | .idcode => do
      match ← idcode? f p.data with
      | some idcode => return if idcode = part.idcode then some s else none
      | none => return some s
    | .frameDataInput => do
      return some (← fill part p.data 0 s.beginRun)
    | role => return write part s role p.data
  else return some s

/-- The effect of a run of packets. -/
def run (part : Part f) (s : State f) : List (Packet f) → Except OutOfBounds (Option (State f))
  | [] => return some s
  | p :: rest => do
    match ← step part s p with
    | some s => run part s rest
    | none => return none

/-- The frames that a run of packets writes to a part. -/
def replay (part : Part f) (packets : List (Packet f)) :
    Except OutOfBounds (Option (Frames f)) := do
  return (← run part .initial packets).map (·.frames)

/-- Inside the loop a whole frame is left, and the rest behind it. -/
theorem exists_slice {data : List Word} {index : Nat} (h : index < data.length / f.wordsPerFrame) :
    ∃ frame,
      slice data (index * f.wordsPerFrame) (index * f.wordsPerFrame + f.wordsPerFrame) =
        .ok frame ∧ frame.length = f.wordsPerFrame ∧
      data.drop (index * f.wordsPerFrame) = frame ++ data.drop ((index + 1) * f.wordsPerFrame) := by
  have hbound : (index + 1) * f.wordsPerFrame ≤ data.length :=
    (Nat.le_div_iff_mul_le f.wordsPerFrame_pos).1 h
  rw [Nat.succ_mul] at hbound ⊢
  refine ⟨(data.drop (index * f.wordsPerFrame)).take f.wordsPerFrame, ?_, ?_, ?_⟩
  · rw [slice, if_pos ⟨Nat.le_add_right _ _, hbound⟩, Nat.add_sub_cancel_left]
  · rw [List.length_take, List.length_drop]
    omega
  · rw [← List.drop_drop, List.take_append_drop]

/-- **No slice of frame data leaves the data**, and from any frame on the rest of the data is
stored. -/
theorem fill_eq (part : Part f) (data : List Word) (index : Nat) (s : State f) :
    fill part data index s = .ok (s.fill part (data.drop (index * f.wordsPerFrame))) := by
  fun_induction fill part data index s with
  | case1 index s hlt start e hslice =>
    obtain ⟨frame, hok, -⟩ := exists_slice hlt
    cases hslice.symm.trans hok
  | case2 index s hlt start frame hslice hnone =>
    obtain ⟨frame', hok, hframe, hdrop⟩ := exists_slice hlt
    obtain rfl := Except.ok.inj (hslice.symm.trans hok)
    rw [hdrop, fill_frame_append hframe, hnone]
  | case3 index s hlt start frame hslice next hsome ih =>
    obtain ⟨frame', hok, hframe, hdrop⟩ := exists_slice hlt
    obtain rfl := Except.ok.inj (hslice.symm.trans hok)
    have hrest : (if s.cursor.crossesRow next then
        (data.drop ((index + 1) * f.wordsPerFrame)).drop (2 * f.wordsPerFrame)
        else data.drop ((index + 1) * f.wordsPerFrame)) =
          data.drop ((index + stride s.cursor next) * f.wordsPerFrame) := by
      unfold stride
      split
      · rw [List.drop_drop, ← Nat.add_mul]
      · rfl
    rw [ih, hdrop, fill_frame_append hframe, hsome]
    simp only [hrest]
  | case4 index s hge =>
    have hshort : data.length < (index + 1) * f.wordsPerFrame :=
      (Nat.div_lt_iff_lt_mul f.wordsPerFrame_pos).1 (Nat.lt_succ_of_le (Nat.not_lt.1 hge))
    have hpos := f.wordsPerFrame_pos
    rw [Nat.succ_mul] at hshort
    rw [fill_of_short]
    rw [List.length_drop]
    omega

theorem idcode?_eq (f : Family) (data : List Word) :
    idcode? f data = .ok (Replay.idcode? f data) := by
  cases f <;> rcases data with - | ⟨high, - | ⟨low, rest⟩⟩ <;> rfl

theorem step_eq (part : Part f) (s : State f) (p : Packet f) :
    step part s p = .ok (Replay.step part s p) := by
  unfold step Replay.step
  split
  case isFalse => rfl
  case isTrue =>
    split
    case h_1 hrole =>
      rw [idcode?_eq, hrole]
      simp only [write]
      cases Replay.idcode? f p.data <;> rfl
    case h_2 hrole =>
      rw [fill_eq, hrole, Nat.zero_mul, List.drop_zero]
      rfl
    case h_3 => rfl

theorem run_eq (part : Part f) (packets : List (Packet f)) (s : State f) :
    run part s packets = .ok (Replay.run part s packets) := by
  induction packets generalizing s with
  | nil => rfl
  | cons p rest ih =>
    rw [run, step_eq, run_cons]
    cases Replay.step part s p with
    | none => rfl
    | some s₁ => exact ih s₁

/-- **No read of a replay leaves the data of its packet**, and what is read is what is replayed. -/
theorem replay_eq (part : Part f) (packets : List (Packet f)) :
    replay part packets = .ok (FpgaBitstream.replay part packets) := by
  rw [replay, run_eq]
  rfl

end ByIndex

/-! ## What is replayed -/

/-- **The replay invariant.**  Over any part that can be had, whatever the packets: no read leaves
the data of its packet; the frames that come out have full length; each is for address 0, for an
address that the frame address register held, or for a frame of the part.  That is because the
address that follows another is always one of the part, even if the numbers of the part are cut. -/
theorem replay_invariant (part : Part f) (hpart : part.Obtained) (packets : List (Packet f)) :
    ByIndex.replay part packets = .ok (replay part packets) ∧
      (∀ frames, replay part packets = some frames → ∀ a words, frames.get? a = some words →
        words.length = f.wordsPerFrame ∧
          (a = ⟨0⟩ ∨ Held part .initial packets a ∨ part.contains a)) ∧
      ∀ a b, part.next? a = some b → part.contains b := by
  have hnext : ∀ a b, part.next? a = some b → part.contains b :=
    fun a b h => Part.contains_of_next? hpart.halvesNamed h
  refine ⟨ByIndex.replay_eq part packets, fun frames hreplay a words hget => ?_, hnext⟩
  obtain ⟨s, hrun, rfl⟩ := Option.map_eq_some_iff.1 hreplay
  have hwithin : Within (fun a => a = ⟨0⟩ ∨ Held part .initial packets a ∨ part.contains a) s := by
    refine Within.run (fun a b _ h => ?_) (fun a ha => ?_) (Within.initial ?_) hrun
    · exact .inr (.inr (hnext a b h))
    · exact .inr (.inl ha)
    · exact .inl rfl
  obtain ⟨hknown, hlength⟩ := hwithin.frames (a, words) (SortedMap.mem_toList_iff.2 hget)
  exact ⟨hlength, hknown⟩

/-- A column of more frames than a minor address can count. -/
def longColumn : PartGeometry where
  idcode := "0x0362d093"
  family := .series7
  regions := some { top := [⟨0, [⟨.clbIoClk, [⟨3, 130⟩]⟩]⟩] }

/-- The part of the long column. -/
def longColumnPart : Part .series7 where
  idcode := 0x0362d093
  layout := .regions ⟨.ofList [(0, ⟨.ofList [(.clbIoClk, ⟨.ofList [(3, ⟨130⟩)]⟩)]⟩)]⟩ .empty

/-- Data for the last frame that a minor address can name, and for the one behind it. -/
def pastLastMinor : List (Packet .series7) :=
  [.frameAddress ⟨0x1FF⟩, .command _ .writeConfig,
    .write (.frameDataInput _) (List.replicate 101 1 ++ List.replicate 101 2)]

theorem replay_invariant_longColumn :
    longColumnPart.Obtained ∧
      replay longColumnPart pastLastMinor =
        some (.ofList [(⟨0x1FF⟩, List.replicate 101 1), (⟨0x180⟩, List.replicate 101 2)]) ∧
      ByIndex.replay longColumnPart pastLastMinor = .ok (replay longColumnPart pastLastMinor) ∧
      ((⟨0x180⟩ : FrameAddress .series7) = ⟨0⟩ ∨
        Held longColumnPart .initial pastLastMinor ⟨0x180⟩ ∨ longColumnPart.contains ⟨0x180⟩) ∧
      longColumnPart.next? ⟨0x1FF⟩ = some ⟨0x180⟩ ∧ longColumnPart.contains ⟨0x180⟩ := by
  have hobtained : longColumnPart.Obtained :=
    .ofGeometry longColumn (eq_ok_of_toOption (by decide +kernel))
  have hreplay : replay longColumnPart pastLastMinor =
      some (.ofList [(⟨0x1FF⟩, List.replicate 101 1), (⟨0x180⟩, List.replicate 101 2)]) := by
    decide +kernel
  have hnext : longColumnPart.next? ⟨0x1FF⟩ = some ⟨0x180⟩ := by decide +kernel
  obtain ⟨hindex, hframes, hcontains⟩ :=
    replay_invariant longColumnPart hobtained pastLastMinor
  obtain ⟨-, hknown⟩ := hframes _ hreplay ⟨0x180⟩ (List.replicate 101 2) (by decide +kernel)
  exact ⟨hobtained, hreplay, hindex, hknown, hnext, hcontains _ _ hnext⟩

end Replay
end FpgaBitstream
