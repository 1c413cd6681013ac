import FpgaBitstream.Proofs.Packetizing

/-!
# One frame written to many addresses

A frame that came as data can be copied instead of being sent again.  The command for multiple frame
writes enables copies for good; from then on each write of the copy register puts the last frame
that came as data at the frame address, whatever the write carries.  Frame addresses may be loaded
in any of the ways that a family knows (`Loads`).  No copy changes what is copied (`Copying.target`),
so any number of targets in any order, the source among them or one of them twice, get the frame
(`Copying.run_targets`): the outcome is the same as if it had been sent for each of them
(`replay_multiFrameWrite`).
-/

namespace FpgaBitstream

variable {f : Family}

namespace Replay

variable {part : Part f} {s : State f} {source a : FrameAddress f} {frame : List Word}

/-! ## Loading a frame address -/

/-- The packets that load a frame address: one write of it as a whole; on Spartan-6, where it is
split over two registers, one write of both halves or, for an address that fits what the second
register takes, one of each. -/
inductive Loads (a : FrameAddress f) : List (Packet f) → Prop where
  | whole {p : Packet f} (h : p.Writes .frameAddress [a.raw]) : Loads a [p]
  | joined {p : Packet f} (h : p.Writes .frameAddressMajor [a.raw >>> 16, a.raw &&& 0xFFFF]) :
    Loads a [p]
  | halves {major minor : Packet f} (hmajor : major.Writes .frameAddressMajor [a.raw >>> 16])
    (hminor : minor.Writes .frameAddressMinor [a.raw &&& 0xFFFF])
    (hfits : a.raw &&& 0xFC00 = 0) : Loads a [major, minor]

/-- The packet of a package that loads an address. -/
theorem loads_frameAddress (a : FrameAddress f) : Loads a [.frameAddress a] := by
  cases f
  case spartan6 => exact .joined ⟨rfl, rfl, rfl⟩
  all_goals exact .whole ⟨rfl, rfl, rfl⟩

/-- The second half replaces ten bits of the address, and is no longer than that. -/
theorem or_minor {raw : Word} (hfits : raw &&& 0xFC00 = 0) :
    (((raw >>> 16 &&& 0xFFFF) <<< 16) &&& ~~~0x3FF) ||| (raw &&& 0xFFFF &&& 0x3FF) = raw := by
  have hlow : ∀ i : Fin 32, (0xFFFF : Word).getLsbD i = decide (i.val < 16) := by decide
  have hminor : ∀ i : Fin 32, (0x3FF : Word).getLsbD i = decide (i.val < 10) := by decide
  have hgap : ∀ i : Fin 32, (0xFC00 : Word).getLsbD i = decide (10 ≤ i.val ∧ i.val < 16) := by
    decide
  refine BitVec.eq_of_getLsbD_eq fun i hi => ?_
  have hzero : (raw.getLsbD i && decide (10 ≤ i ∧ i < 16)) = false := by
    rw [← hgap ⟨i, hi⟩, ← BitVec.getLsbD_and, hfits]
    exact BitVec.getLsbD_zero
  have hback : i - 16 < 16 := by omega
  simp only [BitVec.getLsbD_or, BitVec.getLsbD_shiftLeft, BitVec.getLsbD_and, BitVec.getLsbD_not,
    BitVec.getLsbD_ushiftRight, hlow ⟨i, hi⟩, hminor ⟨i, hi⟩, hlow ⟨i - 16, by omega⟩]
  by_cases hhigh : i < 16
  · by_cases hten : i < 10
    · simp [hhigh, hten]
    · simpa [hhigh, hten] using hzero
  · have hten : ¬ i < 10 := by omega
    have hsame : 16 + (i - 16) = i := by omega
    simp [hhigh, hten, hi, hback, hsame]

@[simp] theorem setFrameAddress_setFrameAddress (s : State f) (raw raw' : Word) :
    (s.setFrameAddress raw).setFrameAddress raw' = s.setFrameAddress raw' := rfl

theorem write_minor (part : Part f) (s : State f) (minor : Word) :
    write part s .frameAddressMinor [minor] =
      some (s.setFrameAddress
        ((s.frameAddress.raw &&& ~~~0x3FF) ||| (minor &&& 0x3FF))).requestRun := rfl

/-- **All of them do the same**: the register holds the address, and a run is asked for if frame
data is being written. -/
theorem Loads.run_eq {packets : List (Packet f)} (h : Loads a packets) (s : State f) :
    run part s packets = some (s.setFrameAddress a.raw).requestRun := by
  cases h with
  | whole h =>
    rw [run_cons, step_of_writes h]
    rfl
  | joined h =>
    rw [run_cons, step_of_writes h]
    show some (s.setFrameAddress (joinHalves (a.raw >>> 16) (a.raw &&& 0xFFFF))).requestRun = _
    rw [joinHalves, Packet.or_halves]
  | halves hmajor hminor hfits =>
    rw [run_cons, step_of_writes hmajor]
    show run part (s.setFrameAddress ((a.raw >>> 16 &&& 0xFFFF) <<< 16)) _ = _
    rw [run_cons, step_of_writes hminor, write_minor, setFrameAddress_setFrameAddress]
    show some (s.setFrameAddress ((((a.raw >>> 16 &&& 0xFFFF) <<< 16) &&& ~~~0x3FF) |||
      (a.raw &&& 0xFFFF &&& 0x3FF))).requestRun = _
    rw [or_minor hfits]

/-! ## Copies -/

/-- The packets that put a copy at an address: they load it, and write to the copy register. -/
structure Target (f : Family) where
  address : FrameAddress f
  load : List (Packet f)
  copy : Packet f
  loads : Loads address load
  copies : ∃ payload, copy.Writes .multiFrameWrite payload

def Target.packets (target : Target f) : List (Packet f) := target.load ++ [target.copy]

/-- Copies are enabled, and what would be copied is the frame, which stands at the source. -/
structure Copying (source : FrameAddress f) (frame : List Word) (s : State f) : Prop where
  enabled : s.copies = true
  lastWritten : s.lastWritten = some source
  stored : s.frames.get? source = some frame

/-- What is copied is put at the frame address. -/
theorem Copying.copy_eq (h : Copying source frame s) :
    s.copy = { s with frames := s.frames.insert s.frameAddress frame } := by
  have hframe : s.lastWritten.bind s.frames.get? = some frame := by
    rw [h.lastWritten, Option.bind_some, h.stored]
  rw [State.copy, hframe]

/-- **One target** gets the frame, and the source keeps it. -/
theorem Copying.target (h : Copying source frame s) (target : Target f) :
    ∃ s', run part s target.packets = some s' ∧ Copying source frame s' ∧
      s'.frames = s.frames.insert target.address frame := by
  obtain ⟨s₁, hs₁⟩ : ∃ s₁, s₁ = (s.setFrameAddress target.address.raw).requestRun := ⟨_, rfl⟩
  have h₁ : Copying source frame s₁ := by
    rw [hs₁]
    exact ⟨h.enabled, h.lastWritten, h.stored⟩
  refine ⟨s₁.copy, ?_, ?_, ?_⟩
  · obtain ⟨payload, hcopy⟩ := target.copies
    rw [Target.packets, run_append, target.loads.run_eq, ← hs₁, Option.bind_some, run_cons,
      step_of_writes hcopy]
    show run part (if s₁.copies then s₁.copy else s₁) [] = _
    rw [if_pos h₁.enabled, run_nil]
  · rw [h₁.copy_eq]
    refine ⟨h₁.enabled, h₁.lastWritten, ?_⟩
    rw [SortedMap.get?_insert]
    split
    · rfl
    · exact h₁.stored
  · rw [h₁.copy_eq, hs₁]
    rfl

/-- **All targets** get the frame, and no other address does. -/
theorem Copying.run_targets (h : Copying source frame s) (part : Part f)
    (targets : List (Target f)) :
    ∃ s', run part s (targets.flatMap Target.packets) = some s' ∧
      ∀ a, s'.frames.get? a =
        if a ∈ targets.map Target.address then some frame else s.frames.get? a := by
  have hstep (done : List (Target f)) (target : Target f) (s₁ : State f) (_ : target ∈ targets)
      (h₁ : Copying source frame s₁ ∧ ∀ a, s₁.frames.get? a =
        if a ∈ done.map Target.address then some frame else s.frames.get? a) :
      ∃ s₂, run part s₁ target.packets = some s₂ ∧ Copying source frame s₂ ∧
        ∀ a, s₂.frames.get? a =
          if a ∈ (done ++ [target]).map Target.address then some frame else s.frames.get? a := by
    obtain ⟨hcopying, hdone⟩ := h₁
    obtain ⟨s₂, hrun, h₂, hframes⟩ := hcopying.target target
    refine ⟨s₂, hrun, h₂, fun a => ?_⟩
    have hmem : a ∈ (done ++ [target]).map Target.address ↔
        a ∈ done.map Target.address ∨ a = target.address := by
      rw [List.map_append, List.mem_append, List.map_singleton, List.mem_singleton]
    rw [hframes, SortedMap.get?_insert, hdone]
    by_cases hhere : a = target.address
    · rw [if_pos hhere, if_pos (hmem.2 (.inr hhere))]
    · simp only [hmem, hhere, if_false, or_false]
  obtain ⟨s', hrun, -, hframes⟩ := run_flatMap Target.packets
    (fun done s' => Copying source frame s' ∧ ∀ a, s'.frames.get? a =
      if a ∈ done.map Target.address then some frame else s.frames.get? a)
    ⟨h, fun a => by simp⟩ hstep
  exact ⟨s', hrun, hframes⟩

/-! ## The frame to be copied -/

/-- A frame that is sent as data, and the command that enables copies. -/
theorem run_source {load : List (Packet f)} {data : Packet f} (part : Part f)
    (hload : Loads source load) (hdata : data.Writes .frameDataInput frame)
    (hframe : frame.length = f.wordsPerFrame) :
    ∃ s, run part .initial
        (.command f .writeConfig :: load ++ [data, .command f .multiFrameWrite]) = some s ∧
      Copying source frame s ∧ s.frames = SortedMap.empty.insert source frame := by
  obtain ⟨s₁, hs₁⟩ : ∃ s₁ : State f, s₁ =
      ((State.initial.setCommand .writeConfig).setFrameAddress source.raw).requestRun := ⟨_, rfl⟩
  have hfill : s₁.beginRun.fill part frame =
      { s₁ with
        cursor := (part.next? source).getD source
        startsRun := false
        lastWritten := some source
        frames := SortedMap.empty.insert source frame } := by
    rw [fill_frame hframe, hs₁, ready_setCommand.beginRun_eq]
    rfl
  refine ⟨(s₁.beginRun.fill part frame).setCommand .multiFrameWrite, ?_, ?_, ?_⟩
  · rw [List.cons_append, run_cons, step_command, Option.bind_some, run_append, hload.run_eq, ← hs₁,
      Option.bind_some, run_cons, step_of_writes hdata]
    show run part (s₁.beginRun.fill part frame) _ = _
    rw [run_cons, step_command]
    rfl
  · rw [hfill]
    refine ⟨Bool.or_true _, rfl, ?_⟩
    rw [frames_setCommand, SortedMap.get?_insert, if_pos rfl]
  · rw [hfill]
    rfl

/-- **Copies are as good as the frame itself.**  A frame is sent for the source, and copied to any
number of targets, where each address is loaded in any of the ways the family knows and each copy
carries whatever it likes.  Then the frame stands at the source and at each of the targets, and
nowhere else, and packetizing these frames and replaying the packets gives them again. -/
theorem replay_multiFrameWrite (part : Part f) {load : List (Packet f)} {data : Packet f}
    (hload : Loads source load) (hdata : data.Writes .frameDataInput frame)
    (hframe : frame.length = f.wordsPerFrame) (targets : List (Target f)) :
    ∃ frames,
      replay part (.command f .writeConfig :: load ++ [data, .command f .multiFrameWrite] ++
        targets.flatMap Target.packets) = some frames ∧
      (∀ a, frames.get? a =
        if a = source ∨ a ∈ targets.map Target.address then some frame else none) ∧
      replay part (.command f .writeConfig :: frames.packetize part) = some frames := by
  obtain ⟨s₁, hrun₁, hcopying, hframes₁⟩ := run_source part hload hdata hframe
  obtain ⟨s₂, hrun₂, hframes₂⟩ := hcopying.run_targets part targets
  have hget (a : FrameAddress f) : s₂.frames.get? a =
      if a = source ∨ a ∈ targets.map Target.address then some frame else none := by
    rw [hframes₂, hframes₁, SortedMap.get?_insert]
    by_cases hmem : a ∈ targets.map Target.address
    · rw [if_pos hmem, if_pos (.inr hmem)]
    · simp only [hmem, if_false, or_false]
      rfl
  have hlength : ∀ entry ∈ s₂.frames.toList, entry.2.length = f.wordsPerFrame := by
    rintro ⟨a, words⟩ hmem
    have hsome := SortedMap.mem_toList_iff.1 hmem
    rw [hget] at hsome
    split at hsome
    · exact Option.some.inj hsome ▸ hframe
    · cases hsome
  refine ⟨s₂.frames, ?_, hget, replay_packetize hlength part⟩
  rw [replay, run_append, hrun₁, Option.bind_some, hrun₂, Option.map_some]

/-- An address of Spartan-6 in its two halves. -/
def loadHalves (a : FrameAddress .spartan6) : List (Packet .spartan6) :=
  [.write (.frameAddress .spartan6) [a.raw >>> 16], .write ⟨0x02⟩ [a.raw &&& 0xFFFF]]

/-- A copy to an address in its two halves, with words that do not count. -/
def copyByHalves : Target .spartan6 where
  address := ⟨0x20003⟩
  load := loadHalves ⟨0x20003⟩
  copy := .write ⟨0x1B⟩ [1, 2]
  loads := .halves (by decide) (by decide) (by decide)
  copies := ⟨[1, 2], by decide⟩

/-- A copy, without any words, to an address that does not fit the register of its second half. -/
def copyAsWhole : Target .spartan6 where
  address := ⟨0x0A00⟩
  load := [.frameAddress ⟨0x0A00⟩]
  copy := .write ⟨0x1B⟩ []
  loads := loads_frameAddress _
  copies := ⟨[], by decide⟩

/-- The part whose only frame is the one that is copied. -/
def sourceOnly : Part .spartan6 := ⟨0, .ranges ⟨[⟨0x10001, 0x10002, by decide⟩], by decide⟩⟩

theorem replay_multiFrameWrite_halves :
    ∃ frames,
      replay sourceOnly (.command _ .writeConfig :: loadHalves ⟨0x10001⟩ ++
        [.longWrite (.frameDataInput _) (List.replicate 65 7), .command _ .multiFrameWrite] ++
        [copyByHalves, copyAsWhole, copyByHalves].flatMap Target.packets) = some frames ∧
      frames.get? ⟨0x10001⟩ = some (List.replicate 65 7) ∧
      frames.get? ⟨0x20003⟩ = some (List.replicate 65 7) ∧
      frames.get? ⟨0x0A00⟩ = some (List.replicate 65 7) ∧
      frames.get? ⟨0x20004⟩ = none := by
  have hload : Loads ⟨0x10001⟩ (loadHalves ⟨0x10001⟩) :=
    .halves (by decide) (by decide) (by decide)
  have hdata : (Packet.longWrite (.frameDataInput .spartan6) (List.replicate 65 7)).Writes
      .frameDataInput (List.replicate 65 7) := ⟨rfl, rfl, rfl⟩
  obtain ⟨frames, hreplay, hget, -⟩ := replay_multiFrameWrite sourceOnly hload hdata
    List.length_replicate [copyByHalves, copyAsWhole, copyByHalves]
  exact ⟨frames, hreplay, hget _, hget _, hget _, hget _⟩

end Replay
end FpgaBitstream
