import FpgaBitstream.Proofs.Replay

/-!
# Control writes under a mask

A control write takes over the bits that the mask selects, and clears all others.  Of the control
register only the inhibit bit has an effect, so two runs from states that differ in this register
but agree in that bit write the same frames (`frames_run_withControl`).  Hence a control write whose
mask leaves out the inhibit bit makes no difference while the bit is clear, and clears it while it
is set (`replay_maskedControl`).  In the second case the write is not confined to the bits of its
mask (`not_forall_replay_maskedControl`).
-/

namespace FpgaBitstream

variable {f : Family}

namespace Replay

variable {part : Part f} {s s' : State f}

/-- Whether the mask lets a control write change the inhibit bit. -/
def State.selectsInhibit (s : State f) : Bool := f.inhibitBit.any s.mask.getLsbD

/-- The state with another value in the control register. -/
def State.withControl (s : State f) (c : Word) : State f := { s with control := c }

/-! ## The control register and the rest of the state -/

section WithControl
variable (c : Word)

@[simp] theorem withControl_control (s : State f) : s.withControl s.control = s := rfl

theorem beginRun_withControl (s : State f) :
    (s.withControl c).beginRun = s.beginRun.withControl c := by
  unfold State.beginRun State.withControl
  by_cases h : s.startsRun <;> simp [h]

theorem fill_withControl (words : List Word) (s : State f) :
    (s.withControl c).fill part words = (s.fill part words).withControl c := by
  fun_induction State.fill part words s with
  | case1 words s frame hshort => rw [State.fill, if_pos hshort]
  | case2 words s frame hlong s₁ hlast =>
    have hlast : part.next? (s.withControl c).cursor = none := hlast
    rw [fill_of_last hlong hlast]
    rfl
  | case3 words s frame hlong s₁ next hnext passed ih =>
    have hnext : part.next? (s.withControl c).cursor = some next := hnext
    rw [fill_of_next hlong hnext]
    exact ih

theorem copy_withControl (s : State f) : (s.withControl c).copy = s.copy.withControl c := by
  unfold State.copy State.withControl
  cases s.lastWritten.bind s.frames.get? <;> rfl

/-- A request for a new run asks the control register for the inhibit bit only. -/
theorem requestRun_withControl {s : State f} (h : (s.withControl c).inhibited = s.inhibited) :
    (s.withControl c).requestRun = s.requestRun.withControl c := by
  unfold State.requestRun
  rw [h]
  rfl

/-- A write to another register neither reads more of the control register than the inhibit bit nor
changes it. -/
theorem write_withControl (h : (s.withControl c).inhibited = s.inhibited) {role : RegisterRole}
    (hrole : role ≠ .control) (data : List Word) :
    write part (s.withControl c) role data = (write part s role data).map (·.withControl c) := by
  have hfar (raw : Word) : ((s.withControl c).setFrameAddress raw).requestRun =
      (s.setFrameAddress raw).requestRun.withControl c :=
    requestRun_withControl (s := s.setFrameAddress raw) c h
  cases role with
  | control => exact absurd rfl hrole
  | mask => cases data <;> rfl
  | command => cases data <;> rfl
  | crc => rfl
  | other => rfl
  | idcode =>
    simp only [write]
    cases idcode? f data with
    | none => rfl
    | some idcode =>
      by_cases h : idcode = part.idcode
      · simp only [h, if_true]
        rfl
      · simp only [h, if_false]
        rfl
  | frameAddress =>
    cases data with
    | nil => rfl
    | cons raw rest => exact congrArg some (hfar raw)
  | frameAddressMajor =>
    rcases data with - | ⟨major, - | ⟨minor, rest⟩⟩
    · rfl
    · rfl
    · exact congrArg some (hfar _)
  | frameAddressMinor =>
    cases data with
    | nil => rfl
    | cons minor rest => exact congrArg some (hfar _)
  | frameDataInput =>
    refine congrArg some ?_
    rw [beginRun_withControl, fill_withControl]
  | multiFrameWrite =>
    refine congrArg some ?_
    show (if s.copies then (s.withControl c).copy else s.withControl c) = _
    rw [copy_withControl]
    split <;> rfl

theorem control_write {role : RegisterRole} (hrole : role ≠ .control) {data : List Word}
    (h : write part s role data = some s') : s'.control = s.control := by
  -- the state is its own copy with the same control register
  have hsame : write part (s.withControl s.control) role data =
      (write part s role data).map (·.withControl s.control) :=
    write_withControl s.control rfl hrole data
  rw [withControl_control, h] at hsame
  have heq : s' = s'.withControl s.control := Option.some.inj hsame
  calc s'.control = (s'.withControl s.control).control := congrArg State.control heq
    _ = s.control := rfl

/-- **One packet** takes states that agree in the inhibit bit to such states. -/
theorem step_withControl (part : Part f) (h : (s.withControl c).inhibited = s.inhibited)
    (p : Packet f) :
    ∃ c', step part (s.withControl c) p = (step part s p).map (·.withControl c') ∧
      ∀ s', step part s p = some s' → (s'.withControl c').inhibited = s'.inhibited := by
  unfold step
  split
  case isFalse =>
    refine ⟨c, rfl, fun s' hs' => ?_⟩
    obtain rfl := Option.some.inj hs'
    exact h
  case isTrue =>
    by_cases hrole : p.register.role = .control
    · rw [hrole]
      cases p.data with
      | nil =>
        refine ⟨c, rfl, fun s' hs' => ?_⟩
        obtain rfl := Option.some.inj hs'
        exact h
      | cons value rest =>
        refine ⟨value &&& s.mask, rfl, fun s' hs' => ?_⟩
        obtain rfl := Option.some.inj hs'
        rfl
    · refine ⟨c, write_withControl c h hrole p.data, fun s' hs' => ?_⟩
      have hcontrol := control_write hrole hs'
      unfold State.inhibited at h ⊢
      rw [hcontrol]
      exact h

end WithControl

/-- **The control register shows in the frames through its inhibit bit only**: runs from two states
that differ in the register and agree in the bit write the same frames. -/
theorem frames_run_withControl {c : Word} (h : (s.withControl c).inhibited = s.inhibited)
    (packets : List (Packet f)) :
    (run part (s.withControl c) packets).map (·.frames) = (run part s packets).map (·.frames) := by
  induction packets generalizing s c with
  | nil => rfl
  | cons p rest ih =>
    obtain ⟨c', hstep, hagree⟩ := step_withControl c part h p
    rw [run_cons, run_cons, hstep]
    cases hsome : step part s p with
    | none => rfl
    | some s₁ => exact ih (hagree s₁ hsome)

/-! ## Masked control writes -/

/-- A control write behind packets that leave a mask without the inhibit bit. -/
structure MaskedControl (part : Part f) (front : List (Packet f)) (p : Packet f) : Prop where
  opcode : p.opcode = .write
  register : p.register = .control f
  mask : ∀ s, run part .initial front = some s → s.selectsInhibit = false

theorem role_control (f : Family) : (Register.control f).role = .control := by cases f <;> rfl

/-- The bits that a mask selects do not include the inhibit bit, whatever the value. -/
theorem inhibited_and_mask (h : s.selectsInhibit = false) (value : Word) :
    (s.withControl (value &&& s.mask)).inhibited = false := by
  unfold State.selectsInhibit at h
  unfold State.inhibited State.withControl
  cases hbit : f.inhibitBit with
  | none => rfl
  | some bit =>
    simp only [hbit, Option.any_some] at h
    simp [h]

theorem inhibited_withControl_zero (s : State f) : (s.withControl 0).inhibited = false := by
  unfold State.inhibited State.withControl
  cases f.inhibitBit <;> simp

/-- A masked control write takes over the bits of its mask and clears all others. -/
theorem MaskedControl.step {front : List (Packet f)} {p : Packet f}
    (h : MaskedControl part front p) {value : Word} {rest : List Word}
    (hdata : p.data = value :: rest) (s : State f) :
    step part s p = some (s.withControl (value &&& s.mask)) := by
  rw [Replay.step, if_pos h.opcode, h.register, role_control, hdata]
  rfl

theorem MaskedControl.step_nil {front : List (Packet f)} {p : Packet f}
    (h : MaskedControl part front p) (hdata : p.data = []) (s : State f) :
    Replay.step part s p = some s := by
  rw [Replay.step, if_pos h.opcode, h.register, role_control, hdata]
  rfl

/-- **Masked control writes.**  Where the mask leaves out the inhibit bit, a control write makes no
difference to the replay unless the bit is set.  A control write with a value clears the bit then,
so the packets behind it are replayed as from a control register of 0. -/
theorem replay_maskedControl (part : Part f) (front back : List (Packet f)) (p : Packet f)
    (h : MaskedControl part front p) :
    (p.data = [] ∨ (∀ s, run part .initial front = some s → s.inhibited = false) →
      replay part (front ++ p :: back) = replay part (front ++ back)) ∧
    (p.data ≠ [] →
      replay part (front ++ p :: back) = (run part .initial front).bind fun s =>
        (run part (s.withControl 0) back).map (·.frames)) := by
  unfold replay
  rw [run_append, run_append]
  cases hfront : run part .initial front with
  | none => exact ⟨fun _ => rfl, fun _ => rfl⟩
  | some s =>
    simp only [Option.bind_some, run_cons, Option.some.injEq, forall_eq']
    have hmask := h.mask s hfront
    cases hdata : p.data with
    | nil =>
      rw [h.step_nil hdata]
      exact ⟨fun _ => rfl, fun hne => absurd rfl hne⟩
    | cons value rest =>
      rw [h.step hdata]
      have hclear := inhibited_and_mask hmask value
      refine ⟨fun hset => ?_, fun _ => ?_⟩
      · have hclear' : s.inhibited = false := hset.resolve_left (List.cons_ne_nil _ _)
        exact frames_run_withControl (hclear.trans hclear'.symm) back
      · -- the register after the write is another one than 0, but agrees in the bit
        have hagree : ((s.withControl 0).withControl (value &&& s.mask)).inhibited =
            (s.withControl 0).inhibited :=
          hclear.trans (inhibited_withControl_zero s).symm
        exact frames_run_withControl hagree back

/-- A part of two frames. -/
def twoFrames : Part .series7 where
  idcode := 0x0362d093
  layout := .ranges ⟨[⟨0, 2, by decide⟩], List.pairwise_singleton _ _⟩

/-- The inhibit bit is set under one mask; then another mask is loaded, and a frame written. -/
def inhibitThenFrame : List (Packet .series7) :=
  [.write (.mask _) [1 <<< 21], .write (.control _) [1 <<< 21], .write (.mask _) [0],
    .frameAddress ⟨0⟩, .command _ .writeConfig,
    .write (.frameDataInput _) (List.replicate 101 1)]

/-- A control write. -/
def clearControl : Packet .series7 := .write (.control _) [0]

/-- An address is loaded, and another frame written. -/
def addressThenFrame : List (Packet .series7) :=
  [.frameAddress ⟨0⟩, .write (.frameDataInput _) (List.replicate 101 2)]

theorem maskedControl_clearControl : MaskedControl twoFrames inhibitThenFrame clearControl where
  opcode := rfl
  register := rfl
  mask := by
    intro s hrun
    have hsome : (run twoFrames .initial inhibitThenFrame).all (!·.selectsInhibit) := by
      decide +kernel
    rw [hrun] at hsome
    simpa using hsome

theorem replay_maskedControl_clearControl :
    MaskedControl twoFrames inhibitThenFrame clearControl ∧
      replay twoFrames (inhibitThenFrame ++ clearControl :: addressThenFrame) =
        (run twoFrames .initial inhibitThenFrame).bind fun s =>
          (run twoFrames (s.withControl 0) addressThenFrame).map (·.frames) :=
  ⟨maskedControl_clearControl,
    (replay_maskedControl twoFrames inhibitThenFrame addressThenFrame clearControl
      maskedControl_clearControl).2 (List.cons_ne_nil _ _)⟩

/-- **A mask does not confine control writes**: one whose mask leaves out the inhibit bit can make a
difference, as the bit set before under another mask is cleared. -/
theorem not_forall_replay_maskedControl :
    ¬ ∀ (f : Family), f.hasWideWords → ∀ (part : Part f) (front back : List (Packet f))
      (p : Packet f), MaskedControl part front p →
        replay part (front ++ p :: back) = replay part (front ++ back) := by
  intro h
  have hsame := h .series7 rfl twoFrames inhibitThenFrame addressThenFrame clearControl
    maskedControl_clearControl
  have hcleared : replay twoFrames (inhibitThenFrame ++ clearControl :: addressThenFrame) =
      some (.ofList [(⟨0⟩, List.replicate 101 2)]) := by decide +kernel
  have hkept : replay twoFrames (inhibitThenFrame ++ addressThenFrame) =
      some (.ofList [(⟨0⟩, List.replicate 101 1), (⟨1⟩, List.replicate 101 2)]) := by
    decide +kernel
  rw [hcleared, hkept] at hsame
  exact absurd hsame (by decide +kernel)

end Replay
end FpgaBitstream
