import FpgaBitstream.Proofs.Restart

/-!
# Frame data in pieces

Frames that follow each other within a row need not come in one packet.  They may be split over any
number of packets, each with some whole frames or none, and other packets may stand in between
(`Delivers`).  Before the first of the frame data only packets without a part in the replay may
(`Packet.Idle`); behind it also those that change registers but do not restart the cursor
(`Aside`).  The frames end up where they would have gone in one packet (`replay_delivers`).
-/

namespace FpgaBitstream

variable {f : Family}

/-- A packet without a part in the replay: not a write, or a write to a register without a role
in it. -/
def Packet.Idle (p : Packet f) : Prop :=
  p.opcode = .write → p.register.role = .crc ∨ p.register.role = .other

/-- Padding words, as they stand in a stream, are idle. -/
theorem Packet.idle_of_type0 {p : Packet f} (hfits : p.Fits) (htype : p.header = .type0) :
    p.Idle := by
  intro hwrite
  obtain ⟨hnop, -⟩ := hfits.plain htype
  rw [hnop] at hwrite
  cases hwrite

namespace Replay

variable {part : Part f} {s t u : State f} {p : Packet f}

/-! ## Packets in between -/

/-- A packet that may stand between packets of frame data: one without a part in the replay, a write
of the mask or the control register, another command than the one to write the configuration, and a
frame address, complete or not, while addresses are inhibited or the last command is another one. -/
inductive Aside (s : State f) (p : Packet f) : Prop where
  | idle (h : p.Idle)
  | mask (h : p.register.role = .mask)
  | control (h : p.register.role = .control)
  | command (h : p.register.role = .command)
      (hother : p.data.head? ≠ some Command.writeConfig.raw)
  | address
      (h : p.register.role ∈ [.frameAddress, .frameAddressMajor, .frameAddressMinor])
      (hoff : s.inhibited = true ∨ s.command ≠ .writeConfig)

theorem step_idle (h : p.Idle) (s : State f) : step part s p = some s := by
  unfold step
  by_cases hwrite : p.opcode = .write
  · rw [if_pos hwrite]
    rcases h hwrite with hrole | hrole
    · rw [hrole]
      rfl
    · rw [hrole]
      rfl
  · rw [if_neg hwrite]

/-- None of them writes frames or can end the replay. -/
theorem Aside.role (h : Aside s p) (hwrite : p.opcode = .write) :
    p.register.role ∉ [.frameDataInput, .multiFrameWrite, .idcode] := by
  cases h with
  | idle h =>
    rcases h hwrite with hrole | hrole
    · rw [hrole]
      decide
    · rw [hrole]
      decide
  | mask h | control h | command h =>
    rw [h]
    decide
  | address h =>
    intro hmem
    revert h hmem
    cases p.register.role <;> decide

theorem Aside.quiet (h : Aside s p) : Quiet part p := by
  have hrole (hwrite : p.opcode = .write) := h.role hwrite
  simp only [List.mem_cons, List.not_mem_nil, or_false, not_or] at hrole
  exact ⟨fun hwrite => (hrole hwrite).1, fun hwrite => (hrole hwrite).2.1,
    fun hwrite hidcode => absurd hidcode (hrole hwrite).2.2⟩

theorem Aside.isData (h : Aside s p) : p.isData = false := by
  by_cases hwrite : p.opcode = .write
  · have hrole := h.role hwrite
    simp only [List.mem_cons, not_or] at hrole
    simp [Packet.isData, hrole.1]
  · simp [Packet.isData, hwrite]

/-- None of them restarts the cursor. -/
theorem Aside.restarts (h : Aside s p) : s.restarts p = false := by
  by_contra hrestarts
  simp only [State.restarts, Bool.and_eq_true, decide_eq_true_eq, Bool.not_eq_false] at hrestarts
  obtain ⟨hwrite, hby⟩ := hrestarts
  rcases State.restartedBy_cases hby with ⟨hrole, hvalue⟩ | ⟨hrole, hinhibited, hcommand⟩
  · cases h with
    | idle h => rcases h hwrite with h | h <;> simp [hrole] at h
    | mask h | control h => simp [hrole] at h
    | command h hother => exact hother hvalue
    | address h => simp [hrole] at h
  · cases h with
    | idle h => rcases h hwrite with h | h <;> simp [h] at hrole
    | mask h | control h | command h => simp [h] at hrole
    | address h hoff =>
      rcases hoff with hoff | hoff
      · rw [hinhibited] at hoff
        cases hoff
      · exact hoff hcommand

/-- **One packet in between** leaves the cursor and the frames, and asks for no new run. -/
theorem Aside.of_step (h : Aside s p) (hstep : step part s p = some t) :
    t.startsRun = s.startsRun ∧ t.cursor = s.cursor ∧ t.frames = s.frames := by
  have hquiet : Quiet part p := h.quiet
  obtain ⟨t', hstep', hframes⟩ := hquiet.step s
  obtain rfl : t = t' := Option.some.inj (hstep.symm.trans hstep')
  refine ⟨?_, cursor_step hstep h.isData, hframes⟩
  rw [startsRun_step hstep, h.restarts, h.isData]
  simp

/-! ## Deliveries -/

/-- Packets that deliver frames from a state on: each packet of frame data has some of the frames,
perhaps none.  The flag tells whether there was frame data before. -/
inductive Delivers (part : Part f) : Bool → State f → List (Packet f) → List (List Word) → Prop where
  | done (begun : Bool) (s : State f) : Delivers part begun s [] []
  | idle {begun : Bool} {s : State f} {p : Packet f} {rest : List (Packet f)}
      {frames : List (List Word)} (h : p.Idle) (hrest : Delivers part begun s rest frames) :
      Delivers part begun s (p :: rest) frames
  | aside {s t : State f} {p : Packet f} {rest : List (Packet f)} {frames : List (List Word)}
      (h : Aside s p) (hstep : step part s p = some t) (hrest : Delivers part true t rest frames) :
      Delivers part true s (p :: rest) frames
  | data {begun : Bool} {s t : State f} {p : Packet f} {rest : List (Packet f)}
      {now later : List (List Word)} (h : p.isData = true) (hdata : p.data = now.flatten)
      (hstep : step part s p = some t) (hrest : Delivers part true t rest later) :
      Delivers part begun s (p :: rest) (now ++ later)

/-- **A delivery** writes its frames to addresses that follow each other within a row, if its data
begin at the first of them. -/
theorem Delivers.run {begun : Bool} {packets : List (Packet f)} {frames : List (List Word)}
    (h : Delivers part begun s packets frames) {entries : List (FrameAddress f × List Word)}
    (hentries : entries.map (·.2) = frames)
    (hrow : entries.IsChain fun x y => Frames.continues part x.1 y.1)
    (hlength : ∀ entry ∈ entries, entry.2.length = f.wordsPerFrame)
    (hfaces : s.beginRun.Faces entries) (hbegun : begun = true → s.startsRun = false) :
    ∃ t, run part s packets = some t ∧ t.frames = s.frames.insertAll entries := by
  induction h generalizing entries with
  | done begun s =>
    obtain rfl := List.map_eq_nil_iff.1 hentries
    exact ⟨s, rfl, rfl⟩
  | @idle begun s p rest frames hidle _ ih =>
    obtain ⟨t, hrun, hframes⟩ := ih hentries hrow hlength hfaces hbegun
    refine ⟨t, ?_, hframes⟩
    rw [run_cons, step_idle hidle]
    exact hrun
  | @aside s t p rest frames haside hstep _ ih =>
    obtain ⟨hstarts, hcursor, hkept⟩ := haside.of_step hstep
    have hs := hbegun rfl
    rw [hs] at hstarts
    rw [beginRun_of_not_startsRun hs] at hfaces
    have hfaces' : t.beginRun.Faces entries := by
      rw [beginRun_of_not_startsRun hstarts]
      intro entry hmem
      rw [hcursor]
      exact hfaces entry hmem
    obtain ⟨u, hrun, hframes⟩ := ih hentries hrow hlength hfaces' fun _ => hstarts
    refine ⟨u, ?_, hframes.trans (by rw [hkept])⟩
    rw [run_cons, hstep]
    exact hrun
  | @data begun s t p rest now later hp hdata hstep _ ih =>
    obtain ⟨first, others, rfl, rfl, rfl⟩ := List.map_eq_append_iff.1 hentries
    rw [step_of_isData hp, hdata, ← List.flatMap_def] at hstep
    obtain rfl := Option.some.inj hstep
    obtain ⟨hwritten, hthen⟩ := fill_row hrow
      (fun entry hmem => hlength entry (List.mem_append_left _ hmem)) hfaces
    have hstarts : (s.beginRun.fill part (first.flatMap (·.2))).startsRun = false := by simp
    have hfaces' : (s.beginRun.fill part (first.flatMap (·.2))).beginRun.Faces others := by
      rw [beginRun_of_not_startsRun hstarts]
      exact hthen
    obtain ⟨u, hrun, hframes⟩ := ih rfl hrow.right_of_append
      (fun entry hmem => hlength entry (List.mem_append_right _ hmem)) hfaces' fun _ => hstarts
    refine ⟨u, ?_, ?_⟩
    · rw [run_cons, step_of_isData hp, hdata, ← List.flatMap_def]
      exact hrun
    · rw [hframes, hwritten, frames_beginRun, SortedMap.insertAll_append]

/-- **Frame data in pieces.**  Let frames be for addresses that follow each other within a row.
Behind the first address and the command to write the configuration, any delivery of the frames
writes exactly these frames to their addresses, however it is split and whatever stands in
between. -/
theorem replay_delivers (part : Part f) {a : FrameAddress f} {words : List Word}
    {entries : List (FrameAddress f × List Word)}
    (hrow : ((a, words) :: entries).IsChain fun x y => Frames.continues part x.1 y.1)
    (hlength : ∀ entry ∈ (a, words) :: entries, entry.2.length = f.wordsPerFrame)
    {packets : List (Packet f)}
    (h : Delivers part false (State.initial.startAt a) packets
      (((a, words) :: entries).map (·.2))) :
    replay part (.frameAddress a :: .command f .writeConfig :: packets) =
      some (.ofList ((a, words) :: entries)) := by
  have hfaces : ((State.initial.startAt a).beginRun).Faces ((a, words) :: entries) := by
    rintro entry ⟨⟩
    exact cursor_beginRun_startAt _ a
  obtain ⟨t, hrun, hframes⟩ := h.run rfl hrow hlength hfaces nofun
  have hwhole : run part .initial ([.frameAddress a, .command f .writeConfig] ++ packets) =
      some t := by
    rw [run_append, run_startAt]
    exact hrun
  rw [replay, show Packet.frameAddress a :: .command f .writeConfig :: packets =
    [.frameAddress a, .command f .writeConfig] ++ packets from rfl, hwhole, Option.map_some,
    hframes, frames_startAt]
  rfl

/-- A part of three frames in one row. -/
def threeInRow : Part .series7 where
  idcode := 0x0362d093
  layout := .ranges ⟨[⟨0, 3, by decide⟩], List.pairwise_singleton _ _⟩

/-- Padding and a write of the CRC come first; then the cursor is set without data, addresses are
inhibited, and an address is loaded.  Two frames follow, and behind another command the third. -/
def inPieces : List (Packet .series7) :=
  [.zeroPad _, .write (.crc _) [5], .write (.frameDataInput _) [], .write (.mask _) [1 <<< 21],
    .write (.control _) [1 <<< 21], .frameAddress ⟨7⟩,
    .write (.frameDataInput _) (List.replicate 101 1 ++ List.replicate 101 2),
    .command _ .lastFrame, .nop _, .longWrite (.frameDataInput _) (List.replicate 101 3)]

theorem delivers_inPieces : Delivers threeInRow false (State.initial.startAt ⟨0⟩) inPieces
    ([] ++ ([List.replicate 101 1, List.replicate 101 2] ++ ([List.replicate 101 3] ++ []))) :=
  .idle (Packet.idle_of_type0 (Packet.fits_zeroPad _) rfl) <|
    .idle (fun _ => .inl rfl) <|
    .data rfl rfl (step_of_isData rfl _) <|
    .aside (.mask rfl) rfl <|
    .aside (.control rfl) rfl <|
    .aside (.address (by decide) (.inl (by decide))) (step_frameAddress _ _) <|
    .data rfl (by simp [Packet.write]) (step_of_isData rfl _) <|
    .aside (.command rfl (by decide)) (step_command _ _) <|
    .idle nofun <|
    .data rfl (by simp [Packet.longWrite]) (step_of_isData rfl _) <|
    .done _ _

theorem replay_delivers_inPieces :
    Delivers threeInRow false (State.initial.startAt ⟨0⟩) inPieces
        [List.replicate 101 1, List.replicate 101 2, List.replicate 101 3] ∧
      replay threeInRow (.frameAddress ⟨0⟩ :: .command _ .writeConfig :: inPieces) =
        some (.ofList [(⟨0⟩, List.replicate 101 1), (⟨1⟩, List.replicate 101 2),
          (⟨2⟩, List.replicate 101 3)]) :=
  ⟨delivers_inPieces,
    replay_delivers threeInRow (by decide +kernel) (by decide +kernel) delivers_inPieces⟩

end Replay
end FpgaBitstream
