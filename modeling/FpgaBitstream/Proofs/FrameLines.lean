import FpgaBitstream.Frames.Text
import FpgaBitstream.Proofs.Geometry
import FpgaBitstream.Proofs.Tokens

/-!
# Lines of a frame file

What is read from a line of a frame file is said without the reader: a line is passed over
(`Frames.PassedOver`), or it holds a frame (`Frames.LineHolds`), or something is wrong with it
(`Frames.LineFault`), where only one error is right for a line.  The reader agrees on all three
(`Frames.parseLine_eq_ok_some_iff`, `Frames.parseLine_eq_error_iff`).  A file is read by writing the
frames on its lines into a set one after the other (`Frames.readLines_eq`); the frames on a run of
lines do not depend on where it stands, and its errors only in their line numbers
(`Frames.frameEntries_add`).
-/

namespace FpgaBitstream

variable {f : Family}

/-- The error as it is reported with a number of lines more in front of its line. -/
def FrameFileError.behind (lines : Nat) : FrameFileError → FrameFileError
  | notText => notText
  | invalidAddress line token => invalidAddress (line + lines) token
  | invalidWord line token => invalidWord (line + lines) token
  | wrongFrameLength line expected found => wrongFrameLength (line + lines) expected found

namespace Frames

/-! ## What is on a line -/

/-- The characters that separate the words of a frame. -/
def separatesWords (c : Char) : Bool := c == ',' || Text.isBlank c

/-- The address on a line, which ends in front of the first blank behind it. -/
def addressToken (text : List Char) : List Char :=
  (text.dropWhile Text.isBlank).takeWhile fun c => !Text.isBlank c

/-- The words on a line, which stand behind the address between commas and blanks. -/
def wordTokens (text : List Char) : List (List Char) :=
  Text.tokens separatesWords ((text.dropWhile Text.isBlank).dropWhile fun c => !Text.isBlank c)

/-- A line on which nothing stands, or a number sign in front of all that is not blank. -/
def PassedOver (text : List Char) : Prop :=
  ∀ c ∈ text.find? fun c => !Text.isBlank c, c = '#'

theorem takeWhile_trim (text : List Char) :
    (Text.trim text).takeWhile (fun c => !Text.isBlank c) = addressToken text := by
  obtain ⟨trail, htrail, hblank⟩ := Text.exists_trail text
  rw [addressToken, htrail, Text.takeWhile_append_of_forall]
  exact fun c hc => by simp [hblank c hc]

theorem tokens_dropWhile_trim (text : List Char) :
    Text.tokens separatesWords ((Text.trim text).dropWhile fun c => !Text.isBlank c) =
      wordTokens text := by
  obtain ⟨trail, htrail, hblank⟩ := Text.exists_trail text
  rw [wordTokens, htrail, Text.dropWhile_append_of_forall, Text.tokens_append_of_forall]
  · exact fun c hc => by simp [separatesWords, hblank c hc]
  · exact fun c hc => by simp [hblank c hc]

/-- What is wrong with a line: that it is no text, or else the address on it, or else the leftmost
bad word, or else the number of the words. -/
inductive LineFault (f : Family) (line : Nat) : Option (List Char) → FrameFileError → Prop where
  | notText : LineFault f line none .notText
  | address {text : List Char} (hframe : ¬ PassedOver text)
      (haddress : Hex.parse32? (addressToken text) = none) :
      LineFault f line (some text) (.invalidAddress line (addressToken text))
  | word {text token : List Char} {raw : Word} {before after : List (List Char)}
      (hframe : ¬ PassedOver text) (haddress : Hex.parse32? (addressToken text) = some raw)
      (htokens : wordTokens text = before ++ token :: after)
      (hbefore : ∀ other ∈ before, ∃ word, Hex.parse32? other = some word)
      (htoken : Hex.parse32? token = none) :
      LineFault f line (some text) (.invalidWord line token)
  | length {text : List Char} {raw : Word} {expected : Nat}
      (hframe : ¬ PassedOver text) (haddress : Hex.parse32? (addressToken text) = some raw)
      (htokens : ∀ token ∈ wordTokens text, ∃ word, Hex.parse32? token = some word)
      (hexpected : expectedWords? (⟨raw⟩ : FrameAddress f) = some expected)
      (hlength : (wordTokens text).length ≠ expected) :
      LineFault f line (some text) (.wrongFrameLength line expected (wordTokens text).length)

/-- The frame on a line: all tokens are numbers, and there are as many words as there must be. -/
structure LineHolds (text : List Char) (a : FrameAddress f) (words : List Word) : Prop where
  frame : ¬ PassedOver text
  address : Hex.parse32? (addressToken text) = some a.raw
  tokens : List.Forall₂ (fun token word => Hex.parse32? token = some word) (wordTokens text) words
  length : ∀ count, expectedWords? a = some count → words.length = count

section Words
variable {line : Nat} {token : List Char} {tokens : List (List Char)}

/-- One word of a frame. -/
def parseWord (line : Nat) (token : List Char) : Except FrameFileError Word :=
  match Hex.parse32? token with
  | some word => .ok word
  | none => .error (.invalidWord line token)

theorem parseWord_eq_ok_iff {word : Word} :
    parseWord line token = .ok word ↔ Hex.parse32? token = some word := by
  unfold parseWord
  split <;> simp_all

theorem parseWord_eq_error_iff {e : FrameFileError} :
    parseWord line token = .error e ↔ Hex.parse32? token = none ∧ e = .invalidWord line token := by
  unfold parseWord
  cases Hex.parse32? token with
  | some word => exact ⟨nofun, nofun⟩
  | none => simp only [Except.error.injEq, true_and, eq_comm]

theorem parseWords_eq_mapM : parseWords line tokens = tokens.mapM (parseWord line) := rfl

theorem parseWords_eq_ok_iff {words : List Word} :
    parseWords line tokens = .ok words ↔
      List.Forall₂ (fun token word => Hex.parse32? token = some word) tokens words := by
  simp only [parseWords_eq_mapM, listMapM_eq_ok_iff, parseWord_eq_ok_iff]

theorem parseWords_eq_error_iff {e : FrameFileError} :
    parseWords line tokens = .error e ↔ ∃ before token after,
      tokens = before ++ token :: after ∧
        (∀ other ∈ before, ∃ word, Hex.parse32? other = some word) ∧
        Hex.parse32? token = none ∧ e = .invalidWord line token := by
  simp only [parseWords_eq_mapM, listMapM_eq_error_iff, parseWord_eq_ok_iff,
    parseWord_eq_error_iff]

theorem exists_parseWords_iff :
    (∃ words, parseWords line tokens = .ok words) ↔
      ∀ token ∈ tokens, ∃ word, Hex.parse32? token = some word := by
  simp only [parseWords_eq_mapM, exists_listMapM_iff, parseWord_eq_ok_iff]

end Words

/-- The frame of an address and its words, if there are as many as there must be. -/
def checkLength (line : Nat) (a : FrameAddress f) (words : List Word) :
    Except FrameFileError (FrameAddress f × List Word) :=
  match expectedWords? a with
  | some expected =>
    if words.length = expected then .ok (a, words)
    else .error (.wrongFrameLength line expected words.length)
  | none => .ok (a, words)

theorem checkLength_eq_ok_iff {line : Nat} {a : FrameAddress f} {words : List Word}
    {frame : FrameAddress f × List Word} :
    checkLength line a words = .ok frame ↔
      (a, words) = frame ∧ ∀ count, expectedWords? a = some count → words.length = count := by
  unfold checkLength
  cases expectedWords? a with
  | none => simp
  | some expected =>
    by_cases hlength : words.length = expected
    · simp [hlength]
    · simp [hlength]

theorem checkLength_eq_error_iff {line : Nat} {a : FrameAddress f} {words : List Word}
    {e : FrameFileError} :
    checkLength line a words = .error e ↔ ∃ expected, expectedWords? a = some expected ∧
      words.length ≠ expected ∧ e = .wrongFrameLength line expected words.length := by
  unfold checkLength
  cases expectedWords? a with
  | none => exact ⟨nofun, nofun⟩
  | some expected =>
    by_cases hlength : words.length = expected
    · simp [hlength]
    · simp only [if_neg hlength]
      constructor
      · intro h
        exact ⟨expected, rfl, hlength, (Except.error.inj h).symm⟩
      · rintro ⟨_, hsome, -, rfl⟩
        rw [Option.some.inj hsome]

theorem parseFrame_of_address {line : Nat} {text : List Char} {raw : Word}
    (h : Hex.parse32? (text.takeWhile fun c => !Text.isBlank c) = some raw) :
    parseFrame (f := f) line text =
      parseWords line (Text.tokens separatesWords (text.dropWhile fun c => !Text.isBlank c)) >>=
        checkLength line ⟨raw⟩ := by
  simp only [parseFrame, List.span_eq_takeWhile_dropWhile, h]
  rw [Text.tokens, ← Text.splitAt_eq_splitOnP]
  rfl

theorem parseFrame_of_not_address {line : Nat} {text : List Char}
    (h : Hex.parse32? (text.takeWhile fun c => !Text.isBlank c) = none) :
    parseFrame (f := f) line text =
      .error (.invalidAddress line (text.takeWhile fun c => !Text.isBlank c)) := by
  simp only [parseFrame, List.span_eq_takeWhile_dropWhile, h]
  rfl

theorem passedOver_iff {text : List Char} :
    PassedOver text ↔ ∀ c ∈ (Text.trim text).head?, c = '#' := by
  rw [Text.head?_trim, PassedOver]

section Line
variable {line : Nat} {text : List Char}

theorem parseLine_of_passedOver (h : PassedOver text) :
    parseLine (f := f) line (some text) = .ok none := by
  rw [passedOver_iff] at h
  cases htrim : Text.trim text with
  | nil =>
    simp only [parseLine, htrim]
    rfl
  | cons c rest =>
    obtain rfl : c = '#' := h c (by rw [htrim]; rfl)
    simp only [parseLine, htrim]
    rfl

theorem parseLine_of_not_passedOver (h : ¬ PassedOver text) :
    parseLine (f := f) line (some text) =
      parseFrame line (Text.trim text) >>= fun frame => .ok (some frame) := by
  rw [passedOver_iff] at h
  simp only [parseLine]
  split
  case h_1 htrim => exact absurd (fun c hc => by rw [htrim] at hc; cases hc) h
  case h_2 htrim => exact absurd (fun c hc => by rw [htrim] at hc; exact (Option.some.inj hc).symm) h
  case h_3 => rfl

theorem parseLine_eq_ok_none_iff :
    parseLine (f := f) line (some text) = .ok none ↔ PassedOver text := by
  by_cases hpassed : PassedOver text
  · exact iff_of_true (parseLine_of_passedOver hpassed) hpassed
  · rw [parseLine_of_not_passedOver hpassed, bind_eq_ok]
    refine iff_of_false ?_ hpassed
    rintro ⟨frame, -, h⟩
    cases h

theorem parseLine_eq_ok_some_iff {a : FrameAddress f} {words : List Word} :
    parseLine line (some text) = .ok (some (a, words)) ↔ LineHolds text a words := by
  by_cases hpassed : PassedOver text
  · rw [parseLine_of_passedOver hpassed]
    exact ⟨nofun, fun h => absurd hpassed h.frame⟩
  rw [parseLine_of_not_passedOver hpassed]
  cases haddress : Hex.parse32? (addressToken text) with
  | none =>
    rw [parseFrame_of_not_address (by rwa [takeWhile_trim])]
    refine ⟨nofun, fun h => ?_⟩
    rw [h.address] at haddress
    cases haddress
  | some raw =>
    rw [parseFrame_of_address (by rwa [takeWhile_trim]), tokens_dropWhile_trim]
    simp only [bind_eq_ok, parseWords_eq_ok_iff, checkLength_eq_ok_iff, Except.ok.injEq,
      Option.some.injEq]
    constructor
    · rintro ⟨_, ⟨words, htokens, rfl, hlength⟩, heq⟩
      obtain ⟨rfl, rfl⟩ := Prod.mk.inj heq
      exact ⟨hpassed, haddress, htokens, hlength⟩
    · intro h
      obtain rfl : raw = a.raw := Option.some.inj (haddress.symm.trans h.address)
      exact ⟨_, ⟨words, h.tokens, rfl, h.length⟩, rfl⟩

end Line

/-- **The fault of a line** is what is reported. -/
theorem parseLine_eq_error_iff {line : Nat} {text : Option (List Char)} {e : FrameFileError} :
    parseLine (f := f) line text = .error e ↔
      LineFault f line text e := by
  cases text with
  | none =>
    constructor
    · intro h
      obtain rfl := Except.error.inj h
      exact .notText
    · rintro ⟨⟩
      rfl
  | some text =>
    by_cases hpassed : PassedOver text
    · rw [parseLine_of_passedOver hpassed]
      refine ⟨nofun, ?_⟩
      rintro (_ | ⟨hframe⟩ | ⟨hframe⟩ | ⟨hframe⟩) <;> exact absurd hpassed hframe
    rw [parseLine_of_not_passedOver hpassed, bind_eq_error, or_iff_left (by simp)]
    cases haddress : Hex.parse32? (addressToken text) with
    | none =>
      rw [parseFrame_of_not_address (by rwa [takeWhile_trim]), takeWhile_trim]
      constructor
      · intro h
        obtain rfl := Except.error.inj h
        exact .address hpassed haddress
      · rintro (_ | _ | ⟨-, hsome⟩ | ⟨-, hsome⟩)
        · rfl
        · rw [haddress] at hsome
          cases hsome
        · rw [haddress] at hsome
          cases hsome
    | some raw =>
      rw [parseFrame_of_address (by rwa [takeWhile_trim]), tokens_dropWhile_trim, bind_eq_error,
        parseWords_eq_error_iff]
      simp only [checkLength_eq_error_iff]
      constructor
      · rintro (⟨before, token, after, htokens, hbefore, htoken, rfl⟩ |
          ⟨words, hwords, expected, hexpected, hlength, rfl⟩)
        · exact .word hpassed haddress htokens hbefore htoken
        · have hcount := (parseWords_eq_ok_iff.1 hwords).length_eq
          rw [← hcount] at hlength ⊢
          exact .length hpassed haddress (exists_parseWords_iff.1 ⟨words, hwords⟩) hexpected hlength
      · rintro (_ | ⟨-, hnone⟩ | ⟨-, hsome, htokens, hbefore, htoken⟩ |
          ⟨-, hsome, htokens, hexpected, hlength⟩)
        · rw [haddress] at hnone
          cases hnone
        · exact .inl ⟨_, _, _, htokens, hbefore, htoken, rfl⟩
        · obtain ⟨words, hwords⟩ := exists_parseWords_iff.2 htokens
          have hcount := (parseWords_eq_ok_iff.1 hwords).length_eq
          obtain rfl := Option.some.inj (haddress.symm.trans hsome)
          exact .inr ⟨words, hwords, _, hexpected, hcount ▸ hlength, by rw [hcount]⟩

example : parseLine (f := .series7) 2 (some "0x0 0x1,0xq zz".toList) =
    .error (.invalidWord 2 "0xq".toList) := by rfl

theorem LineFault.behind {line : Nat} {text : Option (List Char)} {e : FrameFileError}
    (h : LineFault f line text e) (lines : Nat) :
    LineFault f (line + lines) text (e.behind lines) := by
  cases h with
  | notText => exact .notText
  | address hframe haddress => exact .address hframe haddress
  | word hframe haddress htokens hbefore htoken =>
    exact .word hframe haddress htokens hbefore htoken
  | length hframe haddress htokens hexpected hlength =>
    exact .length hframe haddress htokens hexpected hlength

/-- What is read from a line depends on its number in errors only. -/
theorem parseLine_add (line lines : Nat) (text : Option (List Char)) :
    parseLine (f := f) (line + lines) text =
      (parseLine line text).mapError (·.behind lines) := by
  cases h : parseLine (f := f) line text with
  | error e => exact parseLine_eq_error_iff.2 ((parseLine_eq_error_iff.1 h).behind lines)
  | ok entry =>
    cases text with
    | none => cases h
    | some text =>
      cases entry with
      | none => exact parseLine_eq_ok_none_iff.2 (parseLine_eq_ok_none_iff.1 h)
      | some entry => exact parseLine_eq_ok_some_iff.2 (parseLine_eq_ok_some_iff.1 h)

/-! ## What is on a run of lines -/

/-- The frames on the lines of a file from a line number on, in the order of the lines. -/
def frameEntries (line : Nat) :
    List (Option (List Char)) → Except FrameFileError (List (FrameAddress f × List Word))
  | [] => .ok []
  | text :: rest => do
    let entry ← parseLine line text
    let entries ← frameEntries (line + 1) rest
    return entry.toList ++ entries

section Lines
variable {line : Nat} {lines : List (Option (List Char))}

/-- **Reading writes the frames on the lines** into the set one after the other. -/
theorem readLines_eq (line : Nat) (frames : Frames f) (lines : List (Option (List Char))) :
    readLines line frames lines = (frameEntries line lines).map frames.insertAll := by
  induction lines generalizing line frames with
  | nil => rfl
  | cons text rest ih =>
    rw [readLines, frameEntries]
    cases parseLine line text with
    | error e => rfl
    | ok entry =>
      cases entry with
      | none =>
        show readLines (line + 1) frames rest = _
        rw [ih]
        cases frameEntries (f := f) (line + 1) rest <;> rfl
      | some entry =>
        show readLines (line + 1) (frames.insert entry.1 entry.2) rest = _
        rw [ih]
        cases frameEntries (f := f) (line + 1) rest <;> rfl

theorem frameEntries_append (line : Nat) (front rest : List (Option (List Char))) :
    frameEntries (f := f) line (front ++ rest) = do
      let first ← frameEntries line front
      let later ← frameEntries (line + front.length) rest
      return first ++ later := by
  induction front generalizing line with
  | nil =>
    show frameEntries line rest = frameEntries line rest >>= pure
    rw [bind_pure]
  | cons text front ih =>
    have hnumber : line + 1 + front.length = line + (front.length + 1) := by omega
    simp only [List.cons_append, frameEntries, ih, bind_assoc, pure_bind, List.append_assoc,
      List.length_cons, hnumber]

/-- Lines further down have the same frames, and the same errors with their own numbers. -/
theorem frameEntries_add (line lines : Nat) (texts : List (Option (List Char))) :
    frameEntries (f := f) (line + lines) texts =
      (frameEntries line texts).mapError (·.behind lines) := by
  induction texts generalizing line with
  | nil => rfl
  | cons text rest ih =>
    rw [frameEntries, frameEntries, parseLine_add, Nat.add_right_comm, ih]
    cases parseLine (f := f) line text with
    | error e => rfl
    | ok entry =>
      cases frameEntries (f := f) (line + 1) rest <;> rfl

end Lines

end Frames

end FpgaBitstream
