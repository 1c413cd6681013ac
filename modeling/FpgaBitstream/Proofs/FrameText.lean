import FpgaBitstream.Proofs.FileParts
import FpgaBitstream.Proofs.FrameFile
import FpgaBitstream.Proofs.Hex

/-!
# Reading back frame files

A set of frames that is written to a file is read back from it exactly if every frame has the
number of words that its address asks for (`Frames.ofText_toText_iff`), where the frames of
Spartan-6 that vary in length may have any number of words.  The line of a frame is read back to it
(`Frames.lineHolds_lineBody`): a blank ends the address, commas stand between the words
(`Text.tokens_intercalate`), and neither is among the characters of a number; so a line without
words is its address alone once it is trimmed.  The bytes of a text are read as the text is
(`Frames.ofBytes_encode`).
-/

namespace FpgaBitstream

variable {f : Family}

namespace Frames

/-! ## The characters of a line -/

theorem separatesWords_digitChar {d : Nat} (h : d < 16) :
    separatesWords (Hex.digitChar d) = false := by
  revert d
  decide

/-- No character of a number ends a word. -/
theorem separatesWords_of_mem_prefixed {w : Word} {c : Char}
    (h : c ∈ (Hex.prefixed w).toList) : separatesWords c = false := by
  rw [Hex.prefixed_toList, List.mem_cons, List.mem_cons] at h
  rcases h with rfl | rfl | h
  · rfl
  · rfl
  · obtain ⟨i, -, rfl⟩ := List.mem_map.1 h
    exact separatesWords_digitChar (Nat.mod_lt _ (by decide))

theorem isBlank_of_mem_prefixed {w : Word} {c : Char} (h : c ∈ (Hex.prefixed w).toList) :
    Text.isBlank c = false :=
  (Bool.or_eq_false_iff.1 (separatesWords_of_mem_prefixed h)).2

/-- The line of a frame without the newline at its end. -/
def lineBody (a : FrameAddress f) (words : List Word) : List Char :=
  (Hex.prefixed a.raw).toList ++
    ' ' :: [','].intercalate (words.map fun word => (Hex.prefixed word).toList)

section Line
variable (a : FrameAddress f) (words : List Word)

theorem lineText_toList : (lineText a words).toList = lineBody a words ++ ['\n'] := by
  simp [lineText, lineBody, String.toList_intercalate, Function.comp_def]

theorem newline_notMem_lineBody : '\n' ∉ lineBody a words := by
  have hnumber (word : Word) : '\n' ∉ (Hex.prefixed word).toList := fun h =>
    absurd (isBlank_of_mem_prefixed h) (by decide)
  rw [lineBody, List.mem_append, List.mem_cons, not_or, not_or]
  refine ⟨hnumber a.raw, by decide, fun h => ?_⟩
  rcases Text.mem_intercalate h with h | ⟨piece, hpiece, h⟩
  · exact absurd h (by decide)
  · obtain ⟨word, -, rfl⟩ := List.mem_map.1 hpiece
    exact hnumber word h

theorem dropWhile_lineBody : (lineBody a words).dropWhile Text.isBlank = lineBody a words := by
  rw [lineBody, Hex.prefixed_toList, List.cons_append]
  rfl

theorem not_passedOver_lineBody : ¬ PassedOver (lineBody a words) := by
  rw [PassedOver, lineBody, Hex.prefixed_toList, List.cons_append,
    List.find?_cons_of_pos (by decide)]
  exact fun h => absurd (h '0' rfl) (by decide)

theorem addressToken_lineBody : addressToken (lineBody a words) = (Hex.prefixed a.raw).toList := by
  rw [addressToken, dropWhile_lineBody, lineBody, List.takeWhile_append_of_pos,
    List.takeWhile_cons_of_neg (by decide), List.append_nil]
  exact fun c hc => by rw [isBlank_of_mem_prefixed hc]; rfl

theorem wordTokens_lineBody :
    wordTokens (lineBody a words) = words.map fun word => (Hex.prefixed word).toList := by
  rw [wordTokens, dropWhile_lineBody, lineBody, List.dropWhile_append_of_pos,
    List.dropWhile_cons_of_neg (by decide), Text.tokens_cons _ rfl, Text.tokens_intercalate rfl]
  · intro piece hpiece
    obtain ⟨word, -, rfl⟩ := List.mem_map.1 hpiece
    refine ⟨?_, fun c hc => separatesWords_of_mem_prefixed hc⟩
    rw [Hex.prefixed_toList]
    exact List.cons_ne_nil _ _
  · exact fun c hc => by rw [isBlank_of_mem_prefixed hc]; rfl

/-- **The line of a frame holds it**, if it has as many words as its address asks for. -/
theorem lineHolds_lineBody (h : ∀ count, expectedWords? a = some count → words.length = count) :
    LineHolds (lineBody a words) a words where
  frame := not_passedOver_lineBody a words
  address := by rw [addressToken_lineBody, Hex.parse32?_prefixed]
  tokens := by
    rw [wordTokens_lineBody, List.forall₂_map_left_iff, List.forall₂_same]
    exact fun word _ => Hex.parse32?_prefixed word
  length := h

end Line

/-! ## The lines of a file -/

theorem toText_toList (frames : Frames f) :
    frames.toText.toList =
      frames.toList.flatMap fun entry => lineBody entry.1 entry.2 ++ ['\n'] := by
  rw [toText, String.toList_join, List.flatMap_map]
  exact List.flatMap_congr fun entry _ => lineText_toList entry.1 entry.2

/-- The frames on the lines that frames are written to are these frames. -/
theorem entries_lineBodies {entries : List (FrameAddress f × List Word)}
    (h : ∀ entry ∈ entries, ∀ count, expectedWords? entry.1 = some count →
      entry.2.length = count) (line : Nat) :
    LineFormat.characters.entries line
      (entries.flatMap fun entry => lineBody entry.1 entry.2 ++ ['\n']) = .ok entries := by
  induction entries generalizing line with
  | nil => exact LineFormat.entries_nil
  | cons entry rest ih =>
    obtain ⟨hentry, hrest⟩ := List.forall_mem_cons.1 h
    have hline : parseLine line (some (lineBody entry.1 entry.2)) = .ok (some entry) :=
      parseLine_eq_ok_some_iff.2 (lineHolds_lineBody entry.1 entry.2 hentry)
    rw [List.flatMap_cons, List.append_assoc, List.singleton_append]
    refine (LineFormat.entries_line (newline_notMem_lineBody entry.1 entry.2)).trans ?_
    rw [show LineFormat.characters.text = some from rfl, hline, ih hrest]
    rfl

/-- The bytes of a text are read as the text is. -/
theorem ofBytes_encode (text : String) :
    ofBytes (f := f) (Utf8.encode text) = ofText text.toList := by
  have hlines : LineFormat.bytes.lines (Utf8.encode text) =
      LineFormat.characters.lines text.toList := by
    rw [LineFormat.lines, LineFormat.lines, Text.splitAt_eq_splitOnP, Text.splitAt_eq_splitOnP]
    show ((Utf8.encode text).splitOnP (· == 0x0A)).map _ = _
    rw [Utf8.splitOnP_encode, List.map_map]
    refine List.map_congr_left fun line _ => ?_
    rw [Function.comp_apply]
    show (Utf8.decode? (Utf8.encode (String.ofList line))).map (·.toList) = some line
    rw [Utf8.decode?_encode, Option.map_some, String.toList_ofList]
  rw [LineFormat.ofBytes_eq_read, LineFormat.ofText_eq_read, LineFormat.read, LineFormat.read,
    LineFormat.entries, LineFormat.entries, hlines]

/-- Which numbers of words are accepted at an address. -/
theorem expectedWords?_iff {a : FrameAddress f} {words : List Word} :
    (∀ count, expectedWords? a = some count → words.length = count) ↔
      words.length = f.wordsPerFrame ∨ (f = .spartan6 ∧ a.blockType = .cfgClb) := by
  rw [expectedWords?]
  by_cases hfree : !f.hasWideWords ∧ a.blockType = .cfgClb
  · rw [if_pos (by simpa using hfree)]
    refine ⟨fun _ => .inr ⟨?_, hfree.2⟩, fun _ => nofun⟩
    simpa [Family.hasWideWords] using hfree.1
  · have hnot : ¬(f = .spartan6 ∧ a.blockType = .cfgClb) := by
      simpa [Family.hasWideWords] using hfree
    rw [if_neg (by simpa using hfree), or_iff_left hnot]
    exact ⟨fun h => h _ rfl, fun h count hcount => h.trans (Option.some.inj hcount)⟩

theorem sized_iff {frames : Frames f} :
    frames.Sized ↔ ∀ entry ∈ frames.toList, entry.2.length = f.wordsPerFrame ∨
      (f = .spartan6 ∧ entry.1.blockType = .cfgClb) :=
  forall₂_congr fun _ _ => expectedWords?_iff

/-- **A set of frames is read back** from the file it is written to, of text or of bytes, exactly if
every frame has the words of a frame of its family. The frames of the third block type of Spartan-6
may have any number of words. -/
theorem ofText_toText_iff (frames : Frames f) :
    (ofText frames.toText.toList = .ok frames ↔
      ∀ entry ∈ frames.toList, entry.2.length = f.wordsPerFrame ∨
        (f = .spartan6 ∧ entry.1.blockType = .cfgClb)) ∧
    (ofBytes (Utf8.encode frames.toText) = .ok frames ↔
      ∀ entry ∈ frames.toList, entry.2.length = f.wordsPerFrame ∨
        (f = .spartan6 ∧ entry.1.blockType = .cfgClb)) := by
  rw [ofBytes_encode, and_self, ← sized_iff]
  constructor
  · intro h
    exact (OfFile.ofText _ h).sized
  · intro h
    rw [LineFormat.ofText_eq_read, LineFormat.read_eq_ok_iff, toText_toList]
    exact ⟨frames.toList, entries_lineBodies h 1, SortedMap.insertAll_toList frames⟩

example : ofText (f := .spartan6) "# no words\n\n0x20000000 \n".toList =
    .ok (SortedMap.empty.insert ⟨0x20000000⟩ []) := by rfl

end Frames
end FpgaBitstream
