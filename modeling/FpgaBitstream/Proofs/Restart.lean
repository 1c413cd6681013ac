import FpgaBitstream.Proofs.Replay

/-!
# When a run of frame data starts anew

Frame data goes on where it stopped, unless a packet in between restarts the cursor.  Two kinds of
packets do (`State.restarts`): the command to write the configuration, and a frame address while
that command is the last one and addresses are not inhibited.  Nothing else asks for a new run, and
only frame data takes the request back (`startsRun_step`).  Only frame data moves the cursor as
well (`cursor_step`), so along packets that do not restart it (`RunsOn`) data goes on where the data
before it stopped.
-/

namespace FpgaBitstream

variable {f : Family}

/-- Whether a packet writes frame data. -/
def Packet.isData (p : Packet f) : Bool := p.opcode = .write && p.register.role = .frameDataInput

namespace Replay

variable {part : Part f} {s t u : State f} {p : Packet f}

/-- Whether a write to a register restarts the cursor.  A frame address does when it is complete,
which the first half of a narrow one alone is not. -/
def State.restartedBy (s : State f) : RegisterRole → List Word → Bool
  | .command, value :: _ => value = Command.writeConfig.raw
  | .frameAddress, _ :: _ => !s.inhibited && s.command = .writeConfig
  | .frameAddressMajor, _ :: _ :: _ => !s.inhibited && s.command = .writeConfig
  | .frameAddressMinor, _ :: _ => !s.inhibited && s.command = .writeConfig
  | _, _ => false

/-- Whether a packet restarts the cursor. -/
def State.restarts (s : State f) (p : Packet f) : Bool :=
  p.opcode = .write && s.restartedBy p.register.role p.data

/-- What restarts the cursor is the command to write the configuration, or an address while that is
the last command and addresses are not inhibited. -/
theorem State.restartedBy_cases {role : RegisterRole} {data : List Word}
    (h : s.restartedBy role data = true) :
    (role = .command ∧ data.head? = some Command.writeConfig.raw) ∨
      (role ∈ [.frameAddress, .frameAddressMajor, .frameAddressMinor] ∧
        s.inhibited = false ∧ s.command = .writeConfig) := by
  unfold restartedBy at h
  split at h
  case h_1 => exact .inl ⟨rfl, congrArg some (of_decide_eq_true h)⟩
  case h_5 => cases h
  all_goals exact .inr ⟨by decide, by simpa using h⟩

/-! ## The request for a new run -/

@[simp] theorem startsRun_beginRun (s : State f) : s.beginRun.startsRun = false := by
  unfold State.beginRun
  split
  · rfl
  · simpa using ‹¬ s.startsRun = true›

theorem beginRun_of_not_startsRun (h : s.startsRun = false) : s.beginRun = s := by
  rw [State.beginRun, if_neg (by rw [h]; exact Bool.false_ne_true)]

@[simp] theorem startsRun_fill (part : Part f) (data : List Word) (s : State f) :
    (s.fill part data).startsRun = s.startsRun := by
  obtain ⟨cursor, lastWritten, frames, heq⟩ := fill_eq part data s
  rw [heq]

@[simp] theorem cursor_copy (s : State f) : s.copy.cursor = s.cursor := by
  unfold State.copy
  split <;> rfl

@[simp] theorem startsRun_copy (s : State f) : s.copy.startsRun = s.startsRun := by
  unfold State.copy
  split <;> rfl

@[simp] theorem startsRun_setCommand (s : State f) (c : Command) :
    (s.setCommand c).startsRun = (s.startsRun || c.raw = Command.writeConfig.raw) := by
  have hraw : c = .writeConfig ↔ c.raw = Command.writeConfig.raw :=
    ⟨congrArg Command.raw, fun h => congrArg Command.mk h⟩
  simp [State.setCommand, hraw]

@[simp] theorem startsRun_requestRun (s : State f) (raw : Word) :
    (s.setFrameAddress raw).requestRun.startsRun =
      (s.startsRun || (!s.inhibited && s.command = .writeConfig)) := rfl

theorem startsRun_write {role : RegisterRole} {data : List Word}
    (h : write part s role data = some t) :
    t.startsRun =
      (s.restartedBy role data || (s.startsRun && role ≠ .frameDataInput)) := by
  cases role
  case frameDataInput =>
    obtain rfl := Option.some.inj h
    simp [State.restartedBy]
  case crc | other =>
    obtain rfl := Option.some.inj h
    simp [State.restartedBy]
  case multiFrameWrite =>
    obtain rfl := Option.some.inj h
    by_cases hcopies : s.copies
    · simp [State.restartedBy, hcopies]
    · simp [State.restartedBy, hcopies]
  case idcode =>
    obtain rfl : s = t := by
      simp only [write] at h
      split at h
      · split at h
        · exact Option.some.inj h
        · cases h
      · exact Option.some.inj h
    simp [State.restartedBy]
  case frameAddressMajor =>
    -- only a write of both halves makes the address complete
    rcases data with - | ⟨major, - | ⟨minor, rest⟩⟩
    · obtain rfl := Option.some.inj h
      simp [State.restartedBy]
    · obtain rfl := Option.some.inj h
      simp [State.restartedBy, State.setFrameAddress]
    · obtain rfl := Option.some.inj h
      simp [State.restartedBy, Bool.or_comm]
  case mask | control | command | frameAddress | frameAddressMinor =>
    cases data with
    | nil =>
      obtain rfl := Option.some.inj h
      simp [State.restartedBy]
    | cons value rest =>
      obtain rfl := Option.some.inj h
      simp [State.restartedBy, Bool.or_comm]

/-- **A new run is asked for** by the packets that restart the cursor, and the request stands until
frame data comes. -/
theorem startsRun_step (h : step part s p = some t) :
    t.startsRun = (s.restarts p || (s.startsRun && !p.isData)) := by
  unfold step at h
  unfold State.restarts Packet.isData
  by_cases hwrite : p.opcode = .write
  · rw [if_pos hwrite] at h
    rw [startsRun_write h]
    simp [hwrite]
  · rw [if_neg hwrite] at h
    obtain rfl := Option.some.inj h
    simp [hwrite]

/-! ## Packets that leave the run going -/

/-- The packets lead from one state to another, and none of them restarts the cursor. -/
inductive RunsOn (part : Part f) : State f → List (Packet f) → State f → Prop where
  | nil (s : State f) : RunsOn part s [] s
  | cons {s t u : State f} {p : Packet f} {rest : List (Packet f)} (hstep : step part s p = some t)
      (hgoes : s.restarts p = false) (hrest : RunsOn part t rest u) : RunsOn part s (p :: rest) u

theorem RunsOn.run {packets : List (Packet f)} (h : RunsOn part s packets u) :
    run part s packets = some u := by
  induction h with
  | nil s => rfl
  | cons hstep _ _ ih =>
    rw [run_cons, hstep]
    exact ih

theorem step_of_isData (h : p.isData = true) (s : State f) :
    step part s p = some (s.beginRun.fill part p.data) := by
  simp only [Packet.isData, Bool.and_eq_true, decide_eq_true_eq] at h
  obtain ⟨hwrite, hrole⟩ := h
  exact step_of_writes ⟨hwrite, hrole, rfl⟩ s

/-- A packet that writes no frame data leaves the cursor. -/
theorem cursor_step (h : step part s p = some t) (hp : p.isData = false) : t.cursor = s.cursor := by
  unfold step at h
  split at h
  case isFalse =>
    obtain rfl := Option.some.inj h
    rfl
  case isTrue hwrite =>
    rcases write_cases h with ⟨hcursor, -⟩ | ⟨hrole, -⟩ | ⟨-, rfl⟩
    · exact hcursor
    · simp [Packet.isData, hwrite, hrole] at hp
    · by_cases hcopies : s.copies
      · rw [if_pos hcopies]
        exact cursor_copy s
      · rw [if_neg hcopies]

end Replay
end FpgaBitstream
