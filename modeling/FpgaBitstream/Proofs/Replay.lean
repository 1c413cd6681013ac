import FpgaBitstream.Proofs.PacketStream
import FpgaBitstream.Proofs.Topology
import FpgaBitstream.Replay
import Mathlib.Data.List.SplitBy

/-!
# What replay writes

Of all packets only writes of frame data and of the multiple-frame-write register touch the frames
(`write_cases`).  A run of frame data puts one frame after the other (`frames_fill_row`), and over
the padding behind each row goes on with the next one, so that the payload of a whole walk puts a
frame at each of its addresses (`Frames.frames_fill_payloadAlong`).  Whatever bytes the packets came
from, all that replay stores is whole frames of words that fit the stream (`whole_run`).
-/

namespace FpgaBitstream

variable {f : Family}

/-! ## Whole frames -/

/-- As many words as a frame of the family has, each fitting the stream. -/
structure Family.IsFrame (f : Family) (words : List Word) : Prop where
  length : words.length = f.wordsPerFrame
  holds : ∀ word ∈ words, f.Holds word

instance (words : List Word) : Decidable (f.IsFrame words) :=
  decidable_of_iff (words.length = f.wordsPerFrame ∧ ∀ word ∈ words, f.Holds word)
    ⟨fun h => ⟨h.1, h.2⟩, fun h => ⟨h.length, h.holds⟩⟩

theorem Family.isFrame_zeroFrame (f : Family) : f.IsFrame f.zeroFrame := by
  refine ⟨List.length_replicate, fun word hmem => ?_⟩
  rw [List.eq_of_mem_replicate hmem]
  exact Nat.two_pow_pos _

/-- A set that holds nothing but whole frames. -/
def Frames.Whole (frames : Frames f) : Prop := ∀ entry ∈ frames.toList, f.IsFrame entry.2

instance (frames : Frames f) : Decidable frames.Whole :=
  inferInstanceAs (Decidable (∀ entry ∈ frames.toList, _))

theorem Frames.Whole.isFrame {frames : Frames f} (h : frames.Whole) {a : FrameAddress f}
    {words : List Word} (hget : frames.get? a = some words) : f.IsFrame words :=
  h (a, words) (SortedMap.mem_toList_iff.2 hget)

theorem Frames.Whole.insert {frames : Frames f} (h : frames.Whole) (a : FrameAddress f)
    {words : List Word} (hwords : f.IsFrame words) : Frames.Whole (frames.insert a words) := by
  intro entry hmem
  rcases SortedMap.mem_toList_insert hmem with rfl | hmem
  · exact hwords
  · exact h entry hmem

/-! ## Writes -/

/-- **A role that has a name belongs to one register.** -/
theorem Register.eq_of_role_eq {r r' : Register f} (h : r.role = r'.role)
    (hne : r'.role ≠ .other) : r = r' := by
  obtain ⟨raw⟩ := r
  obtain ⟨raw'⟩ := r'
  refine congrArg Register.mk (BitVec.eq_of_toNat_eq ?_)
  cases f
  all_goals
    simp only [role, series7Role, spartan6Role] at h hne
    grind

/-- A packet that writes words to a register with a role, under a header of any type. -/
structure Packet.Writes (p : Packet f) (role : RegisterRole) (data : List Word) : Prop where
  opcode : p.opcode = .write
  role : p.register.role = role
  data : p.data = data

instance (p : Packet f) (role : RegisterRole) (data : List Word) :
    Decidable (p.Writes role data) :=
  decidable_of_iff (p.opcode = .write ∧ p.register.role = role ∧ p.data = data)
    ⟨fun ⟨h₁, h₂, h₃⟩ => ⟨h₁, h₂, h₃⟩, fun ⟨h₁, h₂, h₃⟩ => ⟨h₁, h₂, h₃⟩⟩

namespace Replay

variable {part : Part f} {s s' : State f}

/-! ## Runs of packets -/

@[simp] theorem run_nil : run part s [] = some s := rfl

@[simp] theorem run_cons (p : Packet f) (rest : List (Packet f)) :
    run part s (p :: rest) = (step part s p).bind fun s' => run part s' rest := rfl

theorem run_append (front rest : List (Packet f)) :
    run part s (front ++ rest) = (run part s front).bind fun s' => run part s' rest :=
  List.foldlM_append

/-- What one piece of a run of packets preserves, the whole run preserves. -/
theorem run_flatMap {α : Type} {pieces : List α} (packets : α → List (Packet f))
    (Inv : List α → State f → Prop) (hinv : Inv [] s)
    (hstep : ∀ done piece s, piece ∈ pieces → Inv done s →
      ∃ s', run part s (packets piece) = some s' ∧ Inv (done ++ [piece]) s') :
    ∃ s', run part s (pieces.flatMap packets) = some s' ∧ Inv pieces s' := by
  suffices h : ∀ done rest s, pieces = done ++ rest → Inv done s →
      ∃ s', run part s (rest.flatMap packets) = some s' ∧ Inv pieces s' from h [] pieces s rfl hinv
  intro done rest
  induction rest generalizing done with
  | nil =>
    intro s heq h
    rw [List.append_nil] at heq
    exact ⟨s, rfl, heq ▸ h⟩
  | cons piece rest ih =>
    intro s heq h
    obtain ⟨s₁, hrun₁, h₁⟩ := hstep done piece s (heq ▸ by simp) h
    obtain ⟨s₂, hrun₂, h₂⟩ := ih (done ++ [piece]) s₁ (by rw [heq]; simp) h₁
    refine ⟨s₂, ?_, h₂⟩
    rw [List.flatMap_cons, run_append, hrun₁]
    exact hrun₂

/-! ## What a write does to the frames -/

@[simp] theorem frames_setCommand (s : State f) (c : Command) :
    (s.setCommand c).frames = s.frames := rfl

@[simp] theorem frames_setFrameAddress (s : State f) (raw : Word) :
    (s.setFrameAddress raw).frames = s.frames := rfl

@[simp] theorem frames_requestRun (s : State f) : s.requestRun.frames = s.frames := rfl

@[simp] theorem cursor_setCommand (s : State f) (c : Command) :
    (s.setCommand c).cursor = s.cursor := rfl

@[simp] theorem cursor_setFrameAddress (s : State f) (raw : Word) :
    (s.setFrameAddress raw).cursor = s.cursor := rfl

@[simp] theorem cursor_requestRun (s : State f) : s.requestRun.cursor = s.cursor := rfl

@[simp] theorem frames_beginRun (s : State f) : s.beginRun.frames = s.frames := by
  unfold State.beginRun
  split <;> rfl

/-- **Only frame data and copies touch the frames**, and only frame data moves the cursor. -/
theorem write_cases {role : RegisterRole} {data : List Word}
    (h : write part s role data = some s') :
    (s'.cursor = s.cursor ∧ s'.frames = s.frames) ∨
      (role = .frameDataInput ∧ s' = s.beginRun.fill part data) ∨
      (role = .multiFrameWrite ∧ s' = if s.copies then s.copy else s) := by
  unfold write at h
  split at h
  case h_4 =>
    split at h
    · split at h
      · obtain rfl := Option.some.inj h
        exact Or.inl ⟨rfl, rfl⟩
      · cases h
    · obtain rfl := Option.some.inj h
      exact Or.inl ⟨rfl, rfl⟩
  case h_9 => exact Or.inr (Or.inl ⟨rfl, (Option.some.inj h).symm⟩)
  case h_10 => exact Or.inr (Or.inr ⟨rfl, (Option.some.inj h).symm⟩)
  all_goals
    obtain rfl := Option.some.inj h
    exact Or.inl (by simp)

/-- A packet that leaves the frames alone and does not end the replay. -/
structure Quiet (part : Part f) (p : Packet f) : Prop where
  notData : p.opcode = .write → p.register.role ≠ .frameDataInput
  notCopy : p.opcode = .write → p.register.role ≠ .multiFrameWrite
  idcode : p.opcode = .write → p.register.role = .idcode →
    ∀ idcode, idcode? f p.data = some idcode → idcode = part.idcode

theorem exists_write {role : RegisterRole} {data : List Word}
    (h : role = .idcode → ∀ idcode, idcode? f data = some idcode → idcode = part.idcode) :
    ∃ s', write part s role data = some s' := by
  unfold write
  split
  case h_4 =>
    split
    · rw [if_pos (h rfl _ ‹_›)]
      exact ⟨_, rfl⟩
    · exact ⟨_, rfl⟩
  all_goals exact ⟨_, rfl⟩

theorem Quiet.step {p : Packet f} (h : Quiet part p) (s : State f) :
    ∃ s', step part s p = some s' ∧ s'.frames = s.frames := by
  unfold Replay.step
  by_cases hwrite : p.opcode = .write
  · obtain ⟨s', hs'⟩ := exists_write (s := s) (h.idcode hwrite)
    rw [if_pos hwrite]
    refine ⟨s', hs', ?_⟩
    rcases write_cases hs' with ⟨-, heq⟩ | ⟨hrole, -⟩ | ⟨hrole, -⟩
    · exact heq
    · exact absurd hrole (h.notData hwrite)
    · exact absurd hrole (h.notCopy hwrite)
  · rw [if_neg hwrite]
    exact ⟨s, rfl, rfl⟩

/-- A run of quiet packets leaves the frames alone. -/
theorem run_quiet {packets : List (Packet f)} (h : ∀ p ∈ packets, Quiet part p) (s : State f) :
    ∃ s', run part s packets = some s' ∧ s'.frames = s.frames := by
  induction packets generalizing s with
  | nil => exact ⟨s, rfl, rfl⟩
  | cons p rest ih =>
    obtain ⟨s₁, hstep, h₁⟩ := (h p List.mem_cons_self).step s
    obtain ⟨s₂, hrun, h₂⟩ := ih (fun q hq => h q (List.mem_cons_of_mem _ hq)) s₁
    refine ⟨s₂, ?_, h₂.trans h₁⟩
    rw [run_cons, hstep]
    exact hrun

/-! ## Runs of frame data -/

section Fill
variable {frame : List Word}

@[simp] theorem cursor_store (s : State f) (frame : List Word) :
    (s.store frame).cursor = s.cursor := rfl

@[simp] theorem frames_store (s : State f) (frame : List Word) :
    (s.store frame).frames = s.frames.insert s.cursor frame := rfl

theorem fill_of_short {words : List Word} (h : words.length < f.wordsPerFrame) (s : State f) :
    s.fill part words = s := by
  have hshort : (words.take f.wordsPerFrame).length < f.wordsPerFrame :=
    Nat.lt_of_le_of_lt (List.length_take_le' _ _) h
  rw [State.fill, if_pos hshort]

@[simp] theorem fill_nil (s : State f) : s.fill part [] = s :=
  fill_of_short (show ([] : List Word).length < f.wordsPerFrame from f.wordsPerFrame_pos) s

/-- Behind the last frame of the part the data ends. -/
theorem fill_of_last {words : List Word} {s : State f}
    (hlong : ¬ (words.take f.wordsPerFrame).length < f.wordsPerFrame)
    (hlast : part.next? s.cursor = none) :
    s.fill part words = s.store (words.take f.wordsPerFrame) := by
  rw [State.fill, if_neg hlong]
  simp only [cursor_store, hlast]

/-- Behind any other frame it goes on at the next address, and behind a row after the padding. -/
theorem fill_of_next {words : List Word} {s : State f} {next : FrameAddress f}
    (hlong : ¬ (words.take f.wordsPerFrame).length < f.wordsPerFrame)
    (hnext : part.next? s.cursor = some next) :
    s.fill part words =
      { s.store (words.take f.wordsPerFrame) with cursor := next }.fill part
        (words.drop ((if s.cursor.crossesRow next then 3 else 1) * f.wordsPerFrame)) := by
  rw [State.fill, if_neg hlong]
  simp only [cursor_store, hnext]
  rfl

/-- A whole frame is stored, and behind a row the padding is passed over. -/
theorem fill_frame_append (hframe : frame.length = f.wordsPerFrame) (rest : List Word)
    (s : State f) :
    s.fill part (frame ++ rest) =
      match part.next? s.cursor with
      | none => s.store frame
      | some next => { s.store frame with cursor := next }.fill part
          (if s.cursor.crossesRow next then rest.drop (2 * f.wordsPerFrame) else rest) := by
  have htake : (frame ++ rest).take f.wordsPerFrame = frame := List.take_left' hframe
  have hdrop (count : Nat) : (frame ++ rest).drop (f.wordsPerFrame + count) = rest.drop count := by
    rw [← List.drop_drop, List.drop_left' hframe]
  have hlong : ¬ ((frame ++ rest).take f.wordsPerFrame).length < f.wordsPerFrame := by
    rw [htake, hframe]
    exact Nat.lt_irrefl _
  cases hnext : part.next? s.cursor with
  | none => rw [fill_of_last hlong hnext, htake]
  | some next =>
    rw [fill_of_next hlong hnext, htake]
    by_cases hcross : s.cursor.crossesRow next
    · have hpassed : 3 * f.wordsPerFrame = f.wordsPerFrame + 2 * f.wordsPerFrame := by omega
      simp only [hcross, if_true, hpassed, hdrop]
    · have hpassed : 1 * f.wordsPerFrame = f.wordsPerFrame + 0 := by omega
      simp only [hcross, if_false, Bool.false_eq_true, hpassed, hdrop, List.drop_zero]

/-- One frame of data goes to the cursor, which moves on. -/
theorem fill_frame (hframe : frame.length = f.wordsPerFrame) (s : State f) :
    s.fill part frame =
      { s.store frame with cursor := (part.next? s.cursor).getD s.cursor } := by
  rw [show s.fill part frame = s.fill part (frame ++ []) by rw [List.append_nil],
    fill_frame_append hframe]
  cases part.next? s.cursor with
  | none => rfl
  | some next =>
    have hempty : (if s.cursor.crossesRow next then List.drop (2 * f.wordsPerFrame) ([] : List Word)
        else []) = [] := by
      split <;> simp
    simp only [hempty, fill_nil, Option.getD_some]

/-- The cursor is at the address of the first entry, if there is one. -/
def State.Faces (s : State f) (entries : List (FrameAddress f × List Word)) : Prop :=
  ∀ entry ∈ entries.head?, s.cursor = entry.1

/-- **Frames that follow each other within a row** go to their addresses, and leave the cursor at
the address of the frame behind them. -/
theorem fill_row {now later : List (FrameAddress f × List Word)}
    (hchain : (now ++ later).IsChain fun x y => Frames.continues part x.1 y.1)
    (hframes : ∀ entry ∈ now, entry.2.length = f.wordsPerFrame)
    (hcursor : s.Faces (now ++ later)) :
    (s.fill part (now.flatMap (·.2))).frames = s.frames.insertAll now ∧
      (s.fill part (now.flatMap (·.2))).Faces later := by
  induction now generalizing s with
  | nil =>
    rw [List.flatMap_nil, fill_nil]
    exact ⟨rfl, hcursor⟩
  | cons entry now ih =>
    obtain ⟨a, words⟩ := entry
    obtain rfl : s.cursor = a := hcursor (a, words) rfl
    rw [List.cons_append, List.isChain_cons] at hchain
    obtain ⟨hnext, hchain⟩ := hchain
    have hstep : ∀ entry ∈ (now ++ later).head?,
        part.next? s.cursor = some entry.1 ∧ s.cursor.crossesRow entry.1 = false := by
      intro entry hmem
      simpa [Frames.continues] using hnext entry hmem
    rw [List.flatMap_cons, fill_frame_append (hframes _ List.mem_cons_self)]
    cases hlast : part.next? s.cursor with
    | none =>
      -- there can be no entry behind the last frame of the part
      have hnil : now ++ later = [] := by
        refine List.head?_eq_none_iff.1 (Option.eq_none_iff_forall_not_mem.2 fun entry hmem => ?_)
        rw [hlast] at hstep
        exact nomatch (hstep entry hmem).1
      obtain ⟨rfl, rfl⟩ := List.append_eq_nil_iff.1 hnil
      exact ⟨rfl, nofun⟩
    | some next =>
      have hrest : (if s.cursor.crossesRow next then
          (now.flatMap (·.2)).drop (2 * f.wordsPerFrame) else now.flatMap (·.2)) =
            now.flatMap (·.2) := by
        cases now with
        | nil => simp
        | cons b now =>
          obtain ⟨hb, hrow⟩ := hstep b rfl
          obtain rfl : next = b.1 := Option.some.inj (hlast.symm.trans hb)
          rw [hrow, if_neg Bool.false_ne_true]
      simp only [hrest]
      refine ih hchain (fun entry hmem => hframes entry (List.mem_cons_of_mem _ hmem)) ?_
      intro entry hmem
      exact Option.some.inj (hlast.symm.trans (hstep entry hmem).1)

/-- Frames that follow each other within a row go to their addresses. -/
theorem frames_fill_row {entries : List (FrameAddress f × List Word)}
    {a : FrameAddress f} {words : List Word}
    (hchain : ((a, words) :: entries).IsChain fun x y => Frames.continues part x.1 y.1)
    (hframes : ∀ entry ∈ (a, words) :: entries, entry.2.length = f.wordsPerFrame)
    (hcursor : s.cursor = a) :
    (s.fill part (((a, words) :: entries).flatMap (·.2))).frames =
      s.frames.insertAll ((a, words) :: entries) := by
  rw [← List.append_nil ((a, words) :: entries)] at hchain
  refine (fill_row hchain hframes ?_).1
  rintro entry ⟨⟩
  exact hcursor

end Fill

/-- Frame data changes nothing but the cursor and the frames. -/
theorem fill_eq (part : Part f) (words : List Word) (s : State f) :
    ∃ cursor lastWritten frames, s.fill part words =
      { s with cursor := cursor, lastWritten := lastWritten, frames := frames } := by
  fun_induction State.fill part words s with
  | case1 => exact ⟨_, _, _, rfl⟩
  | case2 => exact ⟨_, _, _, rfl⟩
  | case3 words s frame _ s₁ next _ passed ih =>
    obtain ⟨cursor, lastWritten, frames, heq⟩ := ih
    exact ⟨cursor, lastWritten, frames, heq⟩

/-! ## All that is stored is whole frames -/

theorem whole_fill {words : List Word} (hwords : ∀ word ∈ words, f.Holds word)
    (h : s.frames.Whole) : (s.fill part words).frames.Whole := by
  fun_induction State.fill part words s with
  | case1 => exact h
  | case2 words s frame hlong _ _ =>
    exact h.insert _ ⟨Nat.le_antisymm (List.length_take_le _ _) (Nat.not_lt.1 hlong),
      fun word hmem => hwords word (List.mem_of_mem_take hmem)⟩
  | case3 words s frame hlong _ _ _ _ ih =>
    refine ih (fun word hmem => hwords word (List.mem_of_mem_drop hmem)) ?_
    exact h.insert _ ⟨Nat.le_antisymm (List.length_take_le _ _) (Nat.not_lt.1 hlong),
      fun word hmem => hwords word (List.mem_of_mem_take hmem)⟩

theorem whole_copy (h : s.frames.Whole) : s.copy.frames.Whole := by
  unfold State.copy
  cases hlast : s.lastWritten.bind s.frames.get? with
  | none => exact h
  | some frame =>
    obtain ⟨a, -, hget⟩ := Option.bind_eq_some_iff.1 hlast
    exact h.insert _ (h.isFrame hget)

theorem whole_step {p : Packet f} (hdata : ∀ word ∈ p.data, f.Holds word)
    (hstep : step part s p = some s') (h : s.frames.Whole) : s'.frames.Whole := by
  unfold step at hstep
  split at hstep
  · rcases write_cases hstep with ⟨-, heq⟩ | ⟨-, rfl⟩ | ⟨-, rfl⟩
    · rwa [heq]
    · exact whole_fill hdata (by rwa [frames_beginRun])
    · by_cases hcopies : s.copies
      · rw [if_pos hcopies]
        exact whole_copy h
      · rwa [if_neg hcopies]
  · obtain rfl := Option.some.inj hstep
    exact h

/-- **Replay stores whole frames only**, from packets whose words fit the stream. -/
theorem whole_run {packets : List (Packet f)}
    (hdata : ∀ p ∈ packets, ∀ word ∈ p.data, f.Holds word)
    (hrun : run part s packets = some s') (h : s.frames.Whole) : s'.frames.Whole := by
  induction packets generalizing s with
  | nil =>
    obtain rfl := Option.some.inj hrun
    exact h
  | cons p rest ih =>
    obtain ⟨s₁, hstep, hrest⟩ := Option.bind_eq_some_iff.1 hrun
    exact ih (fun q hq => hdata q (List.mem_cons_of_mem _ hq)) hrest
      (whole_step (hdata p List.mem_cons_self) hstep h)

/-! ## The packets around frame data -/

theorem step_of_writes {p : Packet f} {role : RegisterRole} {data : List Word}
    (h : p.Writes role data) (s : State f) : step part s p = write part s role data := by
  rw [step, if_pos h.opcode, h.role, h.data]

theorem step_of_ne {p : Packet f} (h : p.opcode ≠ .write) (s : State f) :
    step part s p = some s :=
  if_neg h

theorem run_replicate {p : Packet f} (h : p.opcode ≠ .write) (count : Nat) (s : State f) :
    run part s (List.replicate count p) = some s := by
  induction count with
  | zero => rfl
  | succ count ih =>
    rw [List.replicate_succ, run_cons, step_of_ne h]
    exact ih

theorem role_frameDataInput (f : Family) : (Register.frameDataInput f).role = .frameDataInput := by
  cases f <;> rfl

theorem step_command (c : Command) (s : State f) :
    step part s (.command f c) = some (s.setCommand c) := by
  cases f <;> rfl

/-- The two words of a narrow frame address make up the address. -/
theorem step_frameAddress (a : FrameAddress f) (s : State f) :
    step part s (.frameAddress a) = some (s.setFrameAddress a.raw).requestRun := by
  cases f
  case spartan6 =>
    show some (s.setFrameAddress (joinHalves (a.raw >>> 16) (a.raw &&& 0xFFFF))).requestRun = _
    rw [joinHalves, Packet.or_halves]
  all_goals rfl

/-- The state behind a frame address and the command to write the configuration. -/
def State.startAt (s : State f) (a : FrameAddress f) : State f :=
  (s.setFrameAddress a.raw).requestRun.setCommand .writeConfig

theorem run_startAt (a : FrameAddress f) (s : State f) :
    run part s [.frameAddress a, .command f .writeConfig] = some (s.startAt a) := by
  rw [run_cons, step_frameAddress, Option.bind_some, run_cons, step_command]
  rfl

@[simp] theorem frames_startAt (s : State f) (a : FrameAddress f) :
    (s.startAt a).frames = s.frames := rfl

/-- Data behind them begins a run at the address. -/
theorem beginRun_startAt (s : State f) (a : FrameAddress f) :
    (s.startAt a).beginRun = { s.startAt a with cursor := a, startsRun := false } :=
  if_pos (Bool.or_true _)

@[simp] theorem cursor_beginRun_startAt (s : State f) (a : FrameAddress f) :
    (s.startAt a).beginRun.cursor = a := by
  rw [beginRun_startAt]

theorem step_frameData {p : Packet f} (hwrite : p.opcode = .write)
    (hregister : p.register = .frameDataInput f) (s : State f) :
    step part s p = some (s.beginRun.fill part p.data) :=
  step_of_writes ⟨hwrite, by rw [hregister, role_frameDataInput], rfl⟩ s

theorem beginRun_beginRun (s : State f) : s.beginRun.beginRun = s.beginRun := by
  unfold State.beginRun
  by_cases h : s.startsRun <;> simp [h]

/-- An empty write in front of the data only begins the run. -/
theorem run_emptyThenLong (data : List Word) (s : State f) :
    run part s [.write (.frameDataInput f) [], .longWrite (.frameDataInput f) data] =
      some (s.beginRun.fill part data) := by
  rw [run_cons, step_frameData rfl rfl]
  show run part (s.beginRun.fill part []) [_] = _
  rw [fill_nil, run_cons, step_frameData rfl rfl, beginRun_beginRun]
  rfl

end Replay

/-! ## The payload of a walk -/

namespace Frames

variable {part : Part f} {s : Replay.State f} (frames : Frames f)

theorem isFrame_wordsAt {a : FrameAddress f}
    (h : ∀ words, frames.get? a = some words → f.IsFrame words) : f.IsFrame (frames.wordsAt a) := by
  unfold wordsAt
  cases hget : frames.get? a with
  | none => exact f.isFrame_zeroFrame
  | some words => exact h words hget

/-- The words of frames along a list of addresses, two zero frames behind each row and at the
end. -/
def payloadAlong (addresses : List (FrameAddress f)) : List Word :=
  (withNext addresses).flatMap fun (a, next) =>
    if next.all a.crossesRow then frames.wordsAt a ++ f.zeroFrame ++ f.zeroFrame
    else frames.wordsAt a

theorem assemblePayload_eq (part : Part f) :
    frames.assemblePayload part = frames.payloadAlong part.addresses := rfl

theorem payloadAlong_singleton (a : FrameAddress f) :
    frames.payloadAlong [a] = frames.wordsAt a ++ (f.zeroFrame ++ f.zeroFrame) := by
  simp [payloadAlong, withNext]

theorem payloadAlong_cons_cons (a b : FrameAddress f) (rest : List (FrameAddress f)) :
    frames.payloadAlong (a :: b :: rest) =
      frames.wordsAt a ++ ((if a.crossesRow b then f.zeroFrame ++ f.zeroFrame else []) ++
        frames.payloadAlong (b :: rest)) := by
  have hnext : withNext (a :: b :: rest) = (a, some b) :: withNext (b :: rest) := rfl
  rw [payloadAlong, hnext, List.flatMap_cons, ← payloadAlong]
  by_cases hcross : a.crossesRow b <;> simp [hcross]

theorem holds_payloadAlong {addresses : List (FrameAddress f)}
    (h : ∀ a ∈ addresses, f.IsFrame (frames.wordsAt a)) :
    ∀ word ∈ frames.payloadAlong addresses, f.Holds word := by
  intro word hword
  obtain ⟨⟨a, next⟩, hmem, hword⟩ := List.mem_flatMap.1 hword
  have hframe := h a (List.of_mem_zip hmem).1
  simp only at hword
  split at hword
  · rw [List.mem_append, List.mem_append] at hword
    rcases hword with (hword | hzero) | hzero
    · exact hframe.holds word hword
    · exact f.isFrame_zeroFrame.holds word hzero
    · exact f.isFrame_zeroFrame.holds word hzero
  · exact hframe.holds word hword

/-- The frames of a part: those of the set at its addresses, and zero frames where there is
none. -/
def onPart (part : Part f) : Frames f :=
  SortedMap.empty.insertAll (part.addresses.map fun a => (a, frames.wordsAt a))

theorem toList_onPart (hclimbs : part.Climbs) :
    (frames.onPart part).toList = part.addresses.map fun a => (a, frames.wordsAt a) := by
  have hascending := hclimbs.walks_addresses.2.2
  exact SortedMap.toList_insertAll (List.pairwise_map.2 hascending)

theorem keys_onPart (hclimbs : part.Climbs) : (frames.onPart part).keys = part.addresses := by
  rw [SortedMap.keys, frames.toList_onPart hclimbs, List.map_map]
  exact List.map_id _

theorem get?_onPart (hclimbs : part.Climbs) {a : FrameAddress f} (ha : a ∈ part.addresses) :
    (frames.onPart part).get? a = some (frames.wordsAt a) := by
  apply SortedMap.mem_toList_iff.1
  rw [frames.toList_onPart hclimbs]
  exact List.mem_map_of_mem ha

/-- **The payload of a walk** puts a frame at each of its addresses. -/
theorem frames_fill_payloadAlong {a : FrameAddress f} {rest : List (FrameAddress f)}
    (hwalks : part.Walks (a :: rest))
    (hframes : ∀ b ∈ a :: rest, (frames.wordsAt b).length = f.wordsPerFrame)
    (hcursor : s.cursor = a) :
    (s.fill part (frames.payloadAlong (a :: rest))).frames =
      s.frames.insertAll ((a :: rest).map fun b => (b, frames.wordsAt b)) := by
  have hpadding (words : List Word) :
      (f.zeroFrame ++ f.zeroFrame ++ words).drop (2 * f.wordsPerFrame) = words := by
    refine List.drop_left' ?_
    simp [Family.zeroFrame]
    omega
  induction rest generalizing s a with
  | nil =>
    have hlast : part.next? a = none := by
      cases hwalks with
      | last h => exact h
    rw [payloadAlong_singleton, Replay.fill_frame_append (hframes a List.mem_cons_self), hcursor,
      hlast]
    simp [hcursor]
  | cons b rest ih =>
    obtain ⟨hnext, hwalks⟩ : part.next? a = some b ∧ part.Walks (b :: rest) := by
      cases hwalks with
      | cons h hrest => exact ⟨h, hrest⟩
    rw [payloadAlong_cons_cons, Replay.fill_frame_append (hframes a List.mem_cons_self), hcursor,
      hnext]
    have hrest : (if a.crossesRow b then List.drop (2 * f.wordsPerFrame)
        ((if a.crossesRow b then f.zeroFrame ++ f.zeroFrame else []) ++
          frames.payloadAlong (b :: rest))
        else (if a.crossesRow b then f.zeroFrame ++ f.zeroFrame else []) ++
          frames.payloadAlong (b :: rest)) = frames.payloadAlong (b :: rest) := by
      by_cases hcross : a.crossesRow b
      · simp only [hcross, if_true, hpadding]
      · simp [hcross]
    simp only [hrest]
    rw [ih hwalks (fun c hc => hframes c (List.mem_cons_of_mem _ hc)) rfl]
    simp [hcursor]

end Frames

end FpgaBitstream
