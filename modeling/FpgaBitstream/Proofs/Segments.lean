import FpgaBitstream.Proofs.FrameData
import FpgaBitstream.Proofs.Package

/-!
# The segments of a package

Each segment assigns words to addresses from its own start on, and these assignments depend on
nothing else: not on the segments in front of it, not on where their data stopped, and not on the
options of the package.  So a package writes the assignments of one segment after the other
(`Package.replay_written`), and segments can be taken apart, reordered and left out as far as their
addresses allow (`Package.partialPackage_independent`).
-/

namespace FpgaBitstream

variable {f : Family}

/-- The frames that a segment assigns to addresses, in the order of the data. -/
def Segment.assignments (part : Part f) (segment : Segment f) :
    List (FrameAddress f × List Word) :=
  part.assignments segment.start segment.payload segment.payload.length

namespace Package

open Replay

variable {part : Part f} {segments segments' : List (Segment f)}

/-- The frames that the segments assign to addresses, a later assignment over an earlier one. -/
def written (part : Part f) (segments : List (Segment f)) : Frames f :=
  .ofList (segments.flatMap (·.assignments part))

/-! ## The replay of a package -/

/-- One segment writes its assignments into the frames that are there. -/
theorem run_assignments (part : Part f) (segment : Segment f) (s : State f) :
    ∃ s', run part s (frameData segment) = some s' ∧
      s'.frames = s.frames.insertAll (segment.assignments part) := by
  obtain ⟨s₁, hcursor, hframes, hrun⟩ := run_frameData part segment s
  refine ⟨_, hrun, ?_⟩
  rw [frames_fill part segment.payload s₁ _ (Nat.le_refl _), hcursor, hframes]
  rfl

/-- Segments write their assignments one after the other. -/
theorem run_flatMap_frameData (part : Part f) (segments : List (Segment f)) (s : State f) :
    ∃ s', run part s (segments.flatMap frameData) = some s' ∧
      s'.frames = s.frames.insertAll (segments.flatMap (·.assignments part)) := by
  have hstep (done : List (Segment f)) (segment : Segment f) (s₁ : State f) (_ : segment ∈ segments)
      (h₁ : s₁.frames = s.frames.insertAll (done.flatMap (·.assignments part))) :
      ∃ s₂, run part s₁ (frameData segment) = some s₂ ∧
        s₂.frames = s.frames.insertAll ((done ++ [segment]).flatMap (·.assignments part)) := by
    obtain ⟨s₂, hrun, hframes⟩ := run_assignments part segment s₁
    refine ⟨s₂, hrun, ?_⟩
    rw [hframes, h₁, List.flatMap_append, List.flatMap_singleton, SortedMap.insertAll_append]
  exact run_flatMap frameData
    (fun done s' => s'.frames = s.frames.insertAll (done.flatMap (·.assignments part))) rfl hstep

/-- **A package writes the assignments of its segments**, under any options. -/
theorem replay_written (part : Part f) (segments : List (Segment f)) (options : PackageOptions) :
    replay part (partialPackage part segments options) = some (written part segments) := by
  have hsegments (s : State f) (hempty : s.frames = .empty) :
      ∃ s', run part s (segments.flatMap frameData) = some s' ∧
        s'.frames = written part segments := by
    obtain ⟨s', hrun, hframes⟩ := run_flatMap_frameData part segments s
    refine ⟨s', hrun, ?_⟩
    rw [hframes, hempty]
    rfl
  obtain ⟨s, hrun, hframes⟩ := run_partialPackage options hsegments
  rw [replay, hrun, Option.map_some, hframes]

/-! ## What is written, segment by segment -/

theorem written_append (part : Part f) (front rest : List (Segment f)) :
    written part (front ++ rest) = (written part front).union (written part rest) := by
  rw [written, List.flatMap_append, SortedMap.ofList_append]
  rfl

/-- Segments without an address in common can be given in any order. -/
theorem written_perm (hperm : segments.Perm segments')
    (hdisjoint : segments.Pairwise fun x y => (written part [x]).Disjoint (written part [y])) :
    written part segments = written part segments' := by
  have hassignments (segment : Segment f) :
      written part [segment] = .ofList (segment.assignments part) := by
    rw [written, List.flatMap_singleton]
  have hfold (segments : List (Segment f)) : written part segments =
      segments.foldl (fun frames segment => frames.insertAll (segment.assignments part)) .empty :=
    SortedMap.insertAll_flatMap (Segment.assignments part) .empty segments
  rw [hfold, hfold]
  refine hperm.foldl_eq' ?_ _
  intro x hx y hy frames
  by_cases hsame : x = y
  · rw [hsame]
  · refine SortedMap.insertAll_comm ?_ frames
    rw [← hassignments, ← hassignments]
    have hsymm : Std.Symm fun x y : Segment f =>
        (written part [x]).Disjoint (written part [y]) := ⟨fun _ _ h b => (h b).symm⟩
    exact hdisjoint.forall hx hy hsame

/-- A segment leaves every frame alone that it does not write. -/
theorem get?_written_of_none {segment : Segment f} {a : FrameAddress f}
    (h : (written part [segment]).get? a = none) (front rest : List (Segment f)) :
    (written part (front ++ segment :: rest)).get? a = (written part (front ++ rest)).get? a := by
  have hcons : segment :: rest = [segment] ++ rest := rfl
  rw [hcons, written_append, written_append, written_append, SortedMap.get?_union,
    SortedMap.get?_union, SortedMap.get?_union, h, Option.or_none]

/-- **The segments of a package are independent of each other.**  A package writes the same frames
under all options.  Two lists of segments behind one another write what the first one writes,
overridden by what the second one writes.  So segments that write no address in common can be given
in any order, and a segment does not affect the frames that it does not write itself. -/
theorem partialPackage_independent (part : Part f) :
    (∀ segments options,
      replay part (partialPackage part segments options) = some (written part segments)) ∧
    (∀ front rest,
      written part (front ++ rest) = (written part front).union (written part rest) ∧
      ∀ a, (written part (front ++ rest)).get? a =
        ((written part rest).get? a).or ((written part front).get? a)) ∧
    (∀ segments segments', segments.Perm segments' →
      (segments.Pairwise fun x y => (written part [x]).Disjoint (written part [y])) →
        written part segments = written part segments') ∧
    (∀ front segment rest a, (written part [segment]).get? a = none →
      (written part (front ++ segment :: rest)).get? a =
        (written part (front ++ rest)).get? a) := by
  refine ⟨replay_written part, ?_, ?_, ?_⟩
  · intro front rest
    have happend := written_append part front rest
    refine ⟨happend, fun a => ?_⟩
    rw [happend, SortedMap.get?_union]
  · intro segments segments' hperm hdisjoint
    exact written_perm hperm hdisjoint
  · intro front segment rest a h
    exact get?_written_of_none h front rest

/-- A part of four frames in one row. -/
def fourFrames : Part .series7 := ⟨0, .ranges ⟨[⟨0, 4, by decide⟩], by decide⟩⟩

/-- A segment for the last frame, with data left over behind it. -/
def lastFrame : Segment .series7 := ⟨⟨3⟩, List.replicate 150 1⟩

/-- A segment for the first frame, and too few words for another one. -/
def firstFrame : Segment .series7 := ⟨⟨0⟩, List.replicate 150 2⟩

theorem partialPackage_independent_swapped :
    written fourFrames [lastFrame, firstFrame] = written fourFrames [firstFrame, lastFrame] ∧
      (written fourFrames [firstFrame, lastFrame]).get? ⟨3⟩ =
        (written fourFrames [lastFrame]).get? ⟨3⟩ := by
  obtain ⟨-, -, hperm, hother⟩ := partialPackage_independent fourFrames
  have hdisjoint : [lastFrame, firstFrame].Pairwise fun x y =>
      (written fourFrames [x]).Disjoint (written fourFrames [y]) := by decide +kernel
  exact ⟨hperm _ _ (.swap _ _ _) hdisjoint, hother [] firstFrame [lastFrame] ⟨3⟩ (by decide +kernel)⟩

end Package
end FpgaBitstream
