import FpgaBitstream.Proofs.FrameData
import FpgaBitstream.Proofs.Restart

/-!
# Frame data behind the last frame

The cursor stays at an address that has no next one (`AtEnd`).  What is left of the data in the same
packet is dropped, so it makes no difference what it is (`fill_congr`).  But until the cursor is
restarted each further packet of frame data begins at that address again, and its first whole frame
takes the place of the last one of the part (`replay_overrun`).  Padding behind the last frame does
no harm in the packet of that frame, and wipes it out in a packet of its own
(`not_forall_replay_overrun`).
-/

namespace FpgaBitstream

variable {f : Family}

namespace Part

/-- The number of words of the data through the frame for the address after `count` steps. -/
def wordsThrough (part : Part f) (a : FrameAddress f) (count : Nat) : Nat :=
  (part.frameIndex a count + 1) * f.wordsPerFrame

variable {part : Part f} {a b : FrameAddress f} {data words : List Word} {count : Nat}

theorem assignment?_eq_some :
    part.assignment? a data count = some (b, words) ↔
      part.advance? a count = some b ∧ part.wordsThrough a count ≤ data.length ∧
        (data.drop (part.frameIndex a count * f.wordsPerFrame)).take f.wordsPerFrame = words := by
  unfold assignment? wordsThrough
  cases part.advance? a count with
  | none => simp
  | some c =>
    by_cases hlong : (part.frameIndex a count + 1) * f.wordsPerFrame ≤ data.length
    · simp [hlong]
    · simp [hlong]

theorem wordsPerFrame_le_wordsThrough (part : Part f) (a : FrameAddress f) (count : Nat) :
    f.wordsPerFrame ≤ part.wordsThrough a count :=
  Nat.le_mul_of_pos_left _ (Nat.succ_pos _)

theorem wordsThrough_succ (h : part.next? a = some b) (count : Nat) :
    part.wordsThrough a (count + 1) =
      (if a.crossesRow b then 3 else 1) * f.wordsPerFrame + part.wordsThrough b count := by
  rw [wordsThrough, frameIndex_succ h, Nat.add_assoc, Nat.add_mul, wordsThrough]

end Part

namespace Replay

variable {part : Part f} {s t u : State f} {p q : Packet f} {a : FrameAddress f}

/-! ## Within a packet -/

/-- **The outcome depends on the words through the last frame only**, and the cursor stays at that
frame. -/
theorem fill_congr {data data' words : List Word} {count : Nat}
    (hstores : part.assignment? s.cursor data count = some (a, words))
    (hlast : part.next? a = none)
    (hsame : data'.take (part.wordsThrough s.cursor count) =
      data.take (part.wordsThrough s.cursor count)) :
    s.fill part data' = s.fill part data ∧ (s.fill part data).cursor = a := by
  have hshort {data : List Word} (h : f.wordsPerFrame ≤ data.length) :
      ¬ (data.take f.wordsPerFrame).length < f.wordsPerFrame := by
    rw [List.length_take]
    omega
  induction count generalizing s data data' with
  | zero =>
    obtain ⟨hhere, hlong, -⟩ := Part.assignment?_eq_some.1 hstores
    obtain rfl : s.cursor = a := Option.some.inj hhere
    have hframe : data'.take f.wordsPerFrame = data.take f.wordsPerFrame := by
      simpa [Part.wordsThrough, Part.frameIndex_zero] using hsame
    have hdata : f.wordsPerFrame ≤ data.length :=
      Nat.le_trans (part.wordsPerFrame_le_wordsThrough s.cursor 0) hlong
    rw [fill_of_last (hframe ▸ hshort hdata) hlast, fill_of_last (hshort hdata) hlast, hframe]
    exact ⟨rfl, rfl⟩
  | succ count ih =>
    obtain ⟨-, hlong, -⟩ := Part.assignment?_eq_some.1 hstores
    have hle := part.wordsPerFrame_le_wordsThrough s.cursor (count + 1)
    have hframe : data'.take f.wordsPerFrame = data.take f.wordsPerFrame := by
      have htake := congrArg (List.take f.wordsPerFrame) hsame
      rwa [List.take_take, List.take_take, Nat.min_eq_left hle] at htake
    have hdata := hshort (Nat.le_trans hle hlong)
    cases hnext : part.next? s.cursor with
    | none =>
      rw [Part.assignment?_succ_of_none hnext] at hstores
      cases hstores
    | some next =>
      rw [fill_of_next (hframe ▸ hdata) hnext, fill_of_next hdata hnext, hframe]
      rw [Part.assignment?_succ hnext] at hstores
      refine ih hstores ?_
      -- behind the frame and its padding the data still agree
      have hdrop := congrArg
        (List.drop ((if s.cursor.crossesRow next then 3 else 1) * f.wordsPerFrame)) hsame
      rwa [Part.wordsThrough_succ hnext, List.drop_take, List.drop_take,
        Nat.add_sub_cancel_left] at hdrop

/-! ## From packet to packet -/

/-- The cursor is at an address without a next one, and no new run was asked for. -/
structure AtEnd (part : Part f) (a : FrameAddress f) (s : State f) : Prop where
  cursor : s.cursor = a
  startsRun : s.startsRun = false
  last : part.next? a = none

/-- At the end a write of frame data stores its first frame, if it has one. -/
theorem AtEnd.fill (h : AtEnd part a s) (data : List Word) :
    s.fill part data =
      if data.length < f.wordsPerFrame then s else s.store (data.take f.wordsPerFrame) := by
  by_cases hshort : data.length < f.wordsPerFrame
  · rw [if_pos hshort, fill_of_short hshort]
  · have hlong : ¬ (data.take f.wordsPerFrame).length < f.wordsPerFrame := by
      rw [List.length_take]
      omega
    have hlast : part.next? s.cursor = none := by rw [h.cursor, h.last]
    rw [if_neg hshort, fill_of_last hlong hlast]

/-- **One packet** that does not restart the cursor leaves it at the end. -/
theorem AtEnd.step (h : AtEnd part a s) (hstep : step part s p = some t)
    (hgoes : s.restarts p = false) : AtEnd part a t := by
  have hstarts : t.startsRun = false := by
    rw [startsRun_step hstep, hgoes, h.startsRun]
    rfl
  refine ⟨?_, hstarts, h.last⟩
  cases hdata : p.isData with
  | false => rw [cursor_step hstep hdata, h.cursor]
  | true =>
    rw [step_of_isData hdata, beginRun_of_not_startsRun h.startsRun, h.fill] at hstep
    obtain rfl := Option.some.inj hstep
    split
    · exact h.cursor
    · exact h.cursor

/-- **A run of packets** none of which restarts the cursor leaves it at the end. -/
theorem AtEnd.runsOn {packets : List (Packet f)} (h : AtEnd part a s)
    (hrun : RunsOn part s packets u) : AtEnd part a u := by
  induction hrun with
  | nil s => exact h
  | cons hstep hgoes _ ih => exact ih (h.step hstep hgoes)

/-- A packet writes frame data, of which the frame after `count` steps goes to an address without a
next one. -/
structure ReachesEnd (part : Part f) (s : State f) (p : Packet f) (count : Nat)
    (a : FrameAddress f) : Prop where
  isData : p.isData = true
  stores : ∃ words, part.assignment? s.beginRun.cursor p.data count = some (a, words)
  last : part.next? a = none

theorem ReachesEnd.atEnd {count : Nat} (h : ReachesEnd part s p count a)
    (hstep : Replay.step part s p = some t) : AtEnd part a t := by
  obtain ⟨words, hstores⟩ := h.stores
  rw [step_of_isData h.isData] at hstep
  obtain rfl := Option.some.inj hstep
  exact ⟨(fill_congr hstores h.last rfl).2, by simp, h.last⟩

/-- **Frame data behind the last frame.**  Let a packet put a frame at an address that has no next
one.  Behind that frame the words of the packet make no difference.  But as long as the cursor is
not restarted, a further packet of frame data puts its first frame at that address, if it has as
many words; no other frame changes. -/
theorem replay_overrun (part : Part f) (front : List (Packet f)) (p : Packet f) {count : Nat}
    (hfront : run part .initial front = some s) (hend : ReachesEnd part s p count a) :
    (∀ data back, data.take (part.wordsThrough s.beginRun.cursor count) =
        p.data.take (part.wordsThrough s.beginRun.cursor count) →
      replay part (front ++ { p with data := data } :: back) = replay part (front ++ p :: back)) ∧
    ∀ between q, (∃ t, RunsOn part s (p :: between) t) → q.isData = true →
      ∃ frames, replay part (front ++ p :: between) = some frames ∧
        replay part (front ++ p :: between ++ [q]) =
          some (if q.data.length < f.wordsPerFrame then frames
            else frames.insert a (q.data.take f.wordsPerFrame)) := by
  constructor
  · intro data back hsame
    obtain ⟨words, hstores⟩ := hend.stores
    have hdata : { p with data := data }.isData = true := hend.isData
    have hstep : step part s { p with data := data } = step part s p := by
      rw [step_of_isData hdata, step_of_isData hend.isData]
      exact congrArg some (fill_congr hstores hend.last hsame).1
    rw [replay, replay, run_append, run_append, hfront, Option.bind_some, Option.bind_some,
      run_cons, run_cons, hstep]
  · rintro between q ⟨u, hruns⟩ hq
    have hu : AtEnd part a u := by
      cases hruns with
      | cons hstep _ hrest => exact (hend.atEnd hstep).runsOn hrest
    have hrun : run part .initial (front ++ p :: between) = some u := by
      rw [run_append, hfront]
      exact hruns.run
    have hdata : run part u [q] = some (u.fill part q.data) := by
      rw [run_cons, step_of_isData hq, beginRun_of_not_startsRun hu.startsRun]
      rfl
    refine ⟨u.frames, by rw [replay, hrun, Option.map_some], ?_⟩
    rw [replay, run_append, hrun, Option.bind_some, hdata, Option.map_some, hu.fill]
    split
    · rfl
    · rw [frames_store, hu.cursor]

/-- A part of the frames 1 and 2. -/
def lastTwo : Part .series7 where
  idcode := 0x0362d093
  layout := .ranges ⟨[⟨1, 3, by decide⟩], List.pairwise_singleton _ _⟩

/-- The address of the first frame, and the command to write the configuration. -/
def fromFirst : List (Packet .series7) := [.frameAddress ⟨1⟩, .command _ .writeConfig]

/-- Data for both frames, and half a frame of padding. -/
def throughEnd : Packet .series7 :=
  .longWrite (.frameDataInput _)
    (List.replicate 101 1 ++ List.replicate 101 2 ++ List.replicate 50 0)

/-- A command that ends the writing, and an address that does not restart the cursor any more. -/
def lastFrameThenAddress : List (Packet .series7) := [.command _ .lastFrame, .frameAddress ⟨1⟩]

/-- Two frames of padding in a packet of their own. -/
def laterPadding : Packet .series7 := .write (.frameDataInput _) (List.replicate 202 0)

theorem reachesEnd_throughEnd :
    ReachesEnd lastTwo (State.initial.startAt ⟨1⟩) throughEnd 1 ⟨2⟩ where
  isData := rfl
  stores := by
    rw [cursor_beginRun_startAt]
    exact ⟨List.replicate 101 2, by decide +kernel⟩
  last := by decide +kernel

theorem replay_overrun_throughEnd :
    ReachesEnd lastTwo (State.initial.startAt ⟨1⟩) throughEnd 1 ⟨2⟩ ∧
      (∃ t, RunsOn lastTwo (State.initial.startAt ⟨1⟩) (throughEnd :: lastFrameThenAddress) t) ∧
      ∃ frames,
        replay lastTwo (fromFirst ++ throughEnd :: lastFrameThenAddress) = some frames ∧
        replay lastTwo (fromFirst ++ throughEnd :: lastFrameThenAddress ++ [laterPadding]) =
          some (frames.insert ⟨2⟩ (laterPadding.data.take (Family.wordsPerFrame .series7))) := by
  have hruns : ∃ t,
      RunsOn lastTwo (State.initial.startAt ⟨1⟩) (throughEnd :: lastFrameThenAddress) t :=
    ⟨_, .cons (step_of_isData rfl _) rfl (.cons (step_command _ _) rfl
      (.cons (step_frameAddress _ _) (Bool.and_false _) (.nil _)))⟩
  obtain ⟨frames, hfront, hlater⟩ :=
    (replay_overrun lastTwo fromFirst throughEnd (run_startAt ⟨1⟩ .initial)
      reachesEnd_throughEnd).2 lastFrameThenAddress laterPadding hruns rfl
  rw [if_neg (by decide +kernel)] at hlater
  exact ⟨reachesEnd_throughEnd, hruns, frames, hfront, hlater⟩

/-- **Frame data behind the last frame can change a frame**: padding in a packet of its own is
written over the last frame. -/
theorem not_forall_replay_overrun :
    ¬ ∀ (f : Family) (part : Part f) (front between : List (Packet f)) (p q : Packet f)
        (s : State f) (count : Nat) (a : FrameAddress f),
      run part .initial front = some s → ReachesEnd part s p count a →
        (∃ t, RunsOn part s (p :: between) t) → q.isData = true →
          replay part (front ++ p :: between ++ [q]) = replay part (front ++ p :: between) := by
  intro h
  have hsame := h .series7 lastTwo fromFirst [] throughEnd laterPadding _ 1 ⟨2⟩
    (run_startAt ⟨1⟩ .initial) reachesEnd_throughEnd
    ⟨_, .cons (step_of_isData rfl _) rfl (.nil _)⟩ rfl
  have hpadded : replay lastTwo (fromFirst ++ [throughEnd] ++ [laterPadding]) =
      some (.ofList [(⟨1⟩, List.replicate 101 1), (⟨2⟩, List.replicate 101 0)]) := by
    decide +kernel
  have hkept : replay lastTwo (fromFirst ++ [throughEnd]) =
      some (.ofList [(⟨1⟩, List.replicate 101 1), (⟨2⟩, List.replicate 101 2)]) := by
    decide +kernel
  rw [hpadded, hkept] at hsame
  exact absurd hsame (by decide +kernel)

end Replay
end FpgaBitstream
