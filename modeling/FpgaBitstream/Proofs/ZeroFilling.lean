import FpgaBitstream.Proofs.EccUpdate
import FpgaBitstream.Proofs.RoundTrip

/-!
# Filling up with zeros

The walk of a part gives a frame of zeros to each address that a set of frames lacks
(`Frames.fill`), which is `Frames.addMissing` with a count of the frames that were added.  A set
that is filled up has the same words at every address (`Frames.wordsAt_addMissing`), since a frame
that is lacking counts as zeros, and it still has once the codes of its frames are recomputed
(`Frames.wordsAt_updateEcc`), since the code of a frame of zeros is zero.  So the payload and the
package of a whole part do not depend on the filling (`Frames.zeroFilling_of_built`).
-/

namespace FpgaBitstream

namespace Frames

variable {f : Family} {part : Part f}

/-! ## The walk that fills a set up -/

/-- Gives an address a frame of zeros if it has none, and counts the frame. -/
def fillAt (state : Frames f × Nat) (a : FrameAddress f) : Frames f × Nat :=
  match state.1.get? a with
  | some _ => state
  | none => (state.1.insert a f.zeroFrame, state.2 + 1)

/-- The set after a walk through the part, and the number of frames that were added. -/
def fill (part : Part f) (frames : Frames f) : Frames f × Nat :=
  part.addresses.foldl fillAt (frames, 0)

theorem missing_eq_filter (part : Part f) (frames : Frames f) :
    frames.missing part = part.addresses.filter fun a => (frames.get? a).isNone := by
  simp only [missing, SortedMap.contains, Option.not_isSome]

/-- An address that is filled is not lacking any more, and no other one changes. -/
theorem foldl_fillAt {addresses : List (FrameAddress f)} (hnodup : addresses.Nodup)
    (frames : Frames f) (added : Nat) :
    addresses.foldl fillAt (frames, added) =
      ((addresses.filter fun a => (frames.get? a).isNone).foldl
          (fun frames a => frames.insert a f.zeroFrame) frames,
        added + (addresses.filter fun a => (frames.get? a).isNone).length) := by
  induction addresses generalizing frames added with
  | nil => rfl
  | cons a rest ih =>
    obtain ⟨ha, hrest⟩ := List.nodup_cons.1 hnodup
    rw [List.foldl_cons, fillAt]
    cases hget : frames.get? a with
    | some words =>
      rw [List.filter_cons_of_neg (by simp [hget])]
      exact ih hrest frames added
    | none =>
      have hlater : rest.filter (fun b => ((frames.insert a f.zeroFrame).get? b).isNone) =
          rest.filter fun b => (frames.get? b).isNone :=
        List.filter_congr fun b hb => by
          have hne : b ≠ a := fun heq => ha (heq ▸ hb)
          rw [SortedMap.get?_insert, if_neg hne]
      rw [List.filter_cons_of_pos (by simp [hget]), List.foldl_cons, List.length_cons]
      show rest.foldl fillAt (frames.insert a f.zeroFrame, added + 1) = _
      rw [ih hrest, hlater, Nat.add_assoc, Nat.add_comm 1]

theorem size_foldl_fillAt (addresses : List (FrameAddress f)) (state : Frames f × Nat) :
    (addresses.foldl fillAt state).1.size + state.2 =
      state.1.size + (addresses.foldl fillAt state).2 := by
  induction addresses generalizing state with
  | nil => rfl
  | cons a rest ih =>
    rw [List.foldl_cons, fillAt]
    cases hget : state.1.get? a with
    | some words => exact ih state
    | none =>
      have hstep := ih (state.1.insert a f.zeroFrame, state.2 + 1)
      rw [SortedMap.size_insert_of_none hget] at hstep
      simp only at hstep ⊢
      omega

/-- **The walk** gives the frames that are added all at once, and their number. -/
theorem fill_eq (hnodup : part.addresses.Nodup) (frames : Frames f) :
    frames.fill part = (frames.addMissing part, (frames.missing part).length) := by
  rw [fill, foldl_fillAt hnodup, Nat.zero_add, addMissing, missing_eq_filter]

theorem get?_addMissing (part : Part f) (frames : Frames f) (a : FrameAddress f) :
    (frames.addMissing part).get? a =
      (frames.get? a).or (if a ∈ part.addresses then some f.zeroFrame else none) := by
  have hmem : a ∈ frames.missing part ↔ a ∈ part.addresses ∧ (frames.get? a).isNone := by
    rw [missing_eq_filter, List.mem_filter]
  rw [addMissing, SortedMap.get?_foldl_insert]
  simp only [hmem]
  cases frames.get? a with
  | some words => simp
  | none => simp

/-! ## What does not depend on the filling -/

/-- A frame that is lacking counts as zeros. -/
theorem wordsAt_addMissing (part : Part f) (frames : Frames f) :
    (frames.addMissing part).wordsAt = frames.wordsAt := by
  funext a
  rw [wordsAt, get?_addMissing, wordsAt]
  cases frames.get? a with
  | some words => rfl
  | none =>
    by_cases ha : a ∈ part.addresses
    · rw [if_pos ha]
      rfl
    · rw [if_neg ha]
      rfl

theorem update_zeroFrame (f : Family) : Ecc.update f f.zeroFrame = f.zeroFrame :=
  Ecc.update_replicate_zero f f.wordsPerFrame

/-- The code of a frame that is lacking counts as recomputed. -/
theorem wordsAt_updateEcc (frames : Frames f) (a : FrameAddress f) :
    frames.updateEcc.wordsAt a = Ecc.update f (frames.wordsAt a) := by
  rw [wordsAt, updateEcc, SortedMap.get?_map, wordsAt]
  cases frames.get? a with
  | some words => rfl
  | none => exact (update_zeroFrame f).symm

/-- The payload is made of the words at the addresses. -/
theorem assemblePayload_congr {frames frames' : Frames f} (h : frames.wordsAt = frames'.wordsAt)
    (part : Part f) : frames.assemblePayload part = frames'.assemblePayload part := by
  rw [assemblePayload, assemblePayload, h]

theorem assemblePayload_updateEcc_addMissing (part : Part f) (frames : Frames f) :
    (frames.addMissing part).updateEcc.assemblePayload part =
      frames.updateEcc.assemblePayload part := by
  refine assemblePayload_congr (funext fun a => ?_) part
  rw [wordsAt_updateEcc, wordsAt_updateEcc, wordsAt_addMissing]

theorem admitsLength_wordsPerFrame (f : Family) : Ecc.AdmitsLength f f.wordsPerFrame := by
  cases f <;> decide

end Frames

theorem Tool.assemblePayload_prepare {f : Family} (settings : OutputSettings) (part : Part f)
    (frames : Frames f) :
    (prepare settings part frames).assemblePayload part =
      (if settings.updateEcc then frames.updateEcc else frames).assemblePayload part := by
  rw [prepare]
  by_cases hfill : settings.fillMissingFrames
  · by_cases hecc : settings.updateEcc
    · rw [if_pos hfill, if_pos hecc, if_pos hecc]
      exact Frames.assemblePayload_updateEcc_addMissing part frames
    · rw [if_pos hfill, if_neg hecc, if_neg hecc]
      exact Frames.assemblePayload_congr (Frames.wordsAt_addMissing part frames) part
  · rw [if_neg hfill]

namespace Frames

variable {f : Family} {part : Part f}

/-- What filling a set up for a part keeps and what it adds. -/
structure FilledUp (part : Part f) (frames filled : Frames f) (added : Nat) : Prop where
  /-- The frames of the set stay as they are. -/
  kept {a : FrameAddress f} {words : List Word} (h : frames.get? a = some words) :
    filled.get? a = some words
  /-- The addresses of the walk that the set lacks get frames of zeros, and no others. -/
  lacking {a : FrameAddress f} (h : frames.get? a = none) :
    filled.get? a =
      if a ∈ part.addresses then some (List.replicate f.wordsPerFrame 0) else none
  /-- They are counted. -/
  added_eq : added = (part.addresses.filter fun a => (frames.get? a).isNone).length
  size_eq : filled.size = frames.size + added

theorem filledUp_fill (hnodup : part.addresses.Nodup) (frames : Frames f) :
    FilledUp part frames (frames.fill part).1 (frames.fill part).2 := by
  have hfill := fill_eq hnodup frames
  refine ⟨fun h => ?_, fun h => ?_, ?_, ?_⟩
  · rw [hfill, get?_addMissing, h]
    rfl
  · rw [hfill, get?_addMissing, h]
    rfl
  · rw [hfill, missing_eq_filter]
  · exact size_foldl_fillAt part.addresses (frames, 0)

theorem fill_fill (hnodup : part.addresses.Nodup) (frames : Frames f) :
    (frames.fill part).1.fill part = ((frames.fill part).1, 0) := by
  have hmissing : (frames.addMissing part).missing part = [] := by
    rw [missing_eq_filter, List.filter_eq_nil_iff]
    intro a ha
    rw [get?_addMissing, if_pos ha]
    cases frames.get? a <;> simp
  rw [fill_eq hnodup, fill_eq hnodup, addMissing, hmissing]
  rfl

/-- **Filling up is conservative.** -/
theorem zeroFilling_of_built (hpart : part.Built) (frames : Frames f) :
    (∀ limit, part.walk limit = part.addresses.take limit) ∧
      frames.fill part = (frames.addMissing part, (frames.missing part).length) ∧
      FilledUp part frames (frames.fill part).1 (frames.fill part).2 ∧
      (frames.fill part).1.fill part = ((frames.fill part).1, 0) ∧
      (frames.fill part).1.assemblePayload part = frames.assemblePayload part ∧
      (frames.fill part).1.updateEcc.assemblePayload part =
        frames.updateEcc.assemblePayload part ∧
      ((∀ entry ∈ frames.toList, Ecc.AdmitsLength f entry.2.length) →
        ∀ entry ∈ (frames.fill part).1.toList,
          Ecc.Checked.update? f entry.2 = some (Ecc.update f entry.2)) ∧
      ∀ (settings : OutputSettings) (options : PackageOptions),
        Tool.package options part
            (Tool.prepare { settings with fillMissingFrames := true } part frames) none =
          Tool.package options part
            (Tool.prepare { settings with fillMissingFrames := false } part frames) none := by
  have hclimbs := hpart.fits.climbs
  have hnodup := hclimbs.nodup_addresses
  have hfill := fill_eq hnodup frames
  refine ⟨hclimbs.walk_eq_take, hfill, filledUp_fill hnodup frames, fill_fill hnodup frames,
    ?_, ?_, ?_, ?_⟩
  · rw [hfill]
    exact assemblePayload_congr (wordsAt_addMissing part frames) part
  · rw [hfill]
    exact assemblePayload_updateEcc_addMissing part frames
  · rintro hadmits ⟨a, words⟩ hmem
    apply Ecc.Checked.update?_eq
    rw [hfill, SortedMap.mem_toList_iff, get?_addMissing] at hmem
    cases hget : frames.get? a with
    | some words' =>
      rw [hget] at hmem
      obtain rfl := Option.some.inj hmem
      exact hadmits (a, words') (SortedMap.mem_toList_iff.2 hget)
    | none =>
      rw [hget, Option.none_or] at hmem
      split at hmem
      case isTrue =>
        obtain rfl := Option.some.inj hmem
        rw [Family.zeroFrame, List.length_replicate]
        exact admitsLength_wordsPerFrame f
      case isFalse => cases hmem
  · intro settings options
    rw [Tool.package, Tool.package, Tool.assemblePayload_prepare, Tool.assemblePayload_prepare]

theorem zeroFilling_twoRows :
    twoRows.Built ∧ (threeFrames.fill twoRows).2 = 1 ∧
      (threeFrames.fill twoRows).1.get? ⟨0x01000000⟩ = some (List.replicate 65 0) ∧
      (threeFrames.fill twoRows).1.get? ⟨0x10000000⟩ = some (List.replicate 65 1) ∧
      (threeFrames.fill twoRows).1.fill twoRows = ((threeFrames.fill twoRows).1, 0) ∧
      (threeFrames.fill twoRows).1.assemblePayload twoRows =
        threeFrames.assemblePayload twoRows := by
  have hbuilt : twoRows.Built :=
    .ofAddresses 0x04000093 [⟨0x00000001⟩, ⟨0x01000000⟩] (by decide +kernel)
  obtain ⟨-, -, hfilled, hagain, hpayload, -⟩ := zeroFilling_of_built hbuilt threeFrames
  have haddresses : twoRows.addresses = [⟨0⟩, ⟨1⟩, ⟨0x01000000⟩] := by decide +kernel
  refine ⟨hbuilt, ?_, ?_, hfilled.kept (by decide +kernel), hagain, hpayload⟩
  · rw [hfilled.added_eq, haddresses]
    decide +kernel
  · rw [hfilled.lacking (by decide +kernel), haddresses]
    decide +kernel

end Frames
end FpgaBitstream
