import FpgaBitstream.Proofs.FrameLines

/-!
# Frame files put together

A file of frames, of text or of bytes (`LineFormat`), that ends with the end of a line can be
continued by any other (`LineFormat.entries_append`): what is read is what the two parts are read
to, with the line numbers of the second counted on.  From this come the laws of reading two parts
(`LineFormat.Composes`): the error of the first part is reported, or else that of the second, or
else the frames of the second win over those of the first; remarks between them are only counted;
and the one error that is reported is that of the first line with a fault
(`LineFormat.entries_eq_error_iff`).
-/

namespace FpgaBitstream

variable {f : Family}

/-- How a file is made of lines: what stands at the end of a line, and the text of one. -/
structure LineFormat (α : Type) where
  newline : α
  text : List α → Option (List Char)
  text_nil : text [] = some []

namespace LineFormat

/-- Files of text. -/
def characters : LineFormat Char where
  newline := '\n'
  text := some
  text_nil := rfl

/-- Files of bytes, each line of which spells a text of its own. -/
def bytes : LineFormat UInt8 where
  newline := 0x0A
  text line := (Utf8.decode? line).map (·.toList)
  text_nil := by
    rw [show ([] : List UInt8) = Utf8.encode "" from rfl, Utf8.decode?_encode]
    rfl

variable {α : Type} [DecidableEq α] (format : LineFormat α)

/-- The texts between the ends of lines. -/
def lines (file : List α) : List (Option (List Char)) :=
  (Text.splitAt (· == format.newline) file).map format.text

/-- The frames on the lines of a file, the first of which has a given number. -/
def entries (line : Nat) (file : List α) :
    Except FrameFileError (List (FrameAddress f × List Word)) :=
  Frames.frameEntries line (format.lines file)

/-- The frames of a file. The frame of a later line wins. -/
def read (file : List α) : Except FrameFileError (Frames f) :=
  (format.entries 1 file).map SortedMap.ofList

theorem ofText_eq_read : Frames.ofText (f := f) = characters.read :=
  funext fun _ => Frames.readLines_eq 1 _ _

theorem ofBytes_eq_read : Frames.ofBytes (f := f) = bytes.read :=
  funext fun _ => Frames.readLines_eq 1 _ _

/-- A file that is empty or ends with the end of a line. -/
def Whole (file : List α) : Prop := file = [] ∨ file.getLast? = some format.newline

/-- Whole lines on which no frame stands. -/
inductive Remarks : List α → Prop where
  | nil : Remarks []
  | cons {line rest : List α} {text : List Char} (hline : format.newline ∉ line)
      (htext : format.text line = some text) (hpassed : Frames.PassedOver text)
      (hrest : Remarks rest) : Remarks (line ++ format.newline :: rest)

variable {format}

/-! ## The lines of a file -/

theorem lines_append_cons (front rest : List α) :
    format.lines (front ++ format.newline :: rest) = format.lines front ++ format.lines rest := by
  simp only [lines, Text.splitAt_eq_splitOnP]
  rw [List.splitOnP_append_cons (p := (· == format.newline)) front rest (beq_self_eq_true _),
    List.map_append]

theorem lines_of_notMem {line : List α} (h : format.newline ∉ line) :
    format.lines line = [format.text line] := by
  rw [lines, Text.splitAt_eq_splitOnP, List.splitOnP_eq_singleton]
  · rfl
  · exact fun x hx => beq_false_of_ne fun heq => h (heq ▸ hx)

/-- A line ends at the end of the file or in front of a newline. -/
theorem line_induction (format : LineFormat α) {motive : List α → Prop}
    (last : ∀ line, format.newline ∉ line → motive line)
    (cons : ∀ line rest, format.newline ∉ line → motive rest →
      motive (line ++ format.newline :: rest)) (file : List α) : motive file := by
  induction hlength : file.length using Nat.strongRecOn generalizing file with
  | ind length ih =>
    by_cases h : format.newline ∈ file
    · obtain ⟨line, rest, rfl, hline⟩ := List.eq_append_cons_of_mem h
      refine cons line rest hline (ih rest.length ?_ rest rfl)
      rw [← hlength, List.length_append, List.length_cons]
      omega
    · exact last file h

theorem length_lines (file : List α) :
    (format.lines file).length = file.count format.newline + 1 := by
  induction file using line_induction format with
  | last line hline => rw [lines_of_notMem hline, List.count_eq_zero_of_not_mem hline]; rfl
  | cons line rest hline ih =>
    rw [lines_append_cons, List.length_append, lines_of_notMem hline, ih, List.count_append,
      List.count_cons_self, List.count_eq_zero_of_not_mem hline, List.length_singleton]
    omega

omit [DecidableEq α] in
theorem Whole.nil : format.Whole [] := .inl rfl

omit [DecidableEq α] in
theorem Whole.line (line : List α) {rest : List α} (h : format.Whole rest) :
    format.Whole (line ++ format.newline :: rest) := by
  rcases h with rfl | h
  · exact .inr List.getLast?_concat
  · refine .inr ?_
    rw [List.getLast?_append, List.getLast?_cons, h]
    rfl

/-- The lines of a whole file come in front of those of what follows it. -/
theorem Whole.exists_lines {front : List α} (h : format.Whole front) :
    ∃ texts, texts.length = front.count format.newline ∧
      ∀ rest, format.lines (front ++ rest) = texts ++ format.lines rest := by
  rcases h with rfl | h
  · exact ⟨[], rfl, fun rest => rfl⟩
  · obtain ⟨init, rfl⟩ := List.getLast?_eq_some_iff.1 h
    refine ⟨format.lines init, ?_, fun rest => ?_⟩
    · rw [length_lines, List.count_append, List.count_singleton_self]
    · rw [List.append_assoc, List.singleton_append, lines_append_cons]

/-! ## The frames of a file -/

section Entries
variable {line : Nat} {front rest file : List α}

theorem entries_of_notMem (h : format.newline ∉ file) :
    format.entries (f := f) line file =
      (Frames.parseLine line (format.text file)).map Option.toList := by
  rw [entries, lines_of_notMem h, Frames.frameEntries]
  cases Frames.parseLine (f := f) line (format.text file) with
  | error e => rfl
  | ok entry => exact congrArg Except.ok (List.append_nil _)

theorem entries_nil : format.entries (f := f) line [] = .ok [] := by
  rw [entries_of_notMem List.not_mem_nil, format.text_nil,
    Frames.parseLine_of_passedOver (by simp [Frames.PassedOver])]
  rfl

theorem entries_line (h : format.newline ∉ file) :
    format.entries (f := f) line (file ++ format.newline :: rest) = (do
      let entry ← Frames.parseLine line (format.text file)
      let later ← format.entries (line + 1) rest
      return entry.toList ++ later) := by
  rw [entries, lines_append_cons, lines_of_notMem h]
  rfl

/-- **A whole file and what follows it** are read one after the other. -/
theorem entries_append (h : format.Whole front) (line : Nat) (rest : List α) :
    format.entries (f := f) line (front ++ rest) = (do
      let first ← format.entries line front
      let later ← format.entries (line + front.count format.newline) rest
      return first ++ later) := by
  obtain ⟨texts, hlength, htexts⟩ := h.exists_lines
  have hfront : format.entries (f := f) line front = Frames.frameEntries line texts := by
    have hnil := htexts []
    rw [List.append_nil] at hnil
    have hblank : format.entries (f := f) (line + texts.length) [] = .ok [] := entries_nil
    rw [entries, hnil, Frames.frameEntries_append, ← entries, hblank]
    cases Frames.frameEntries (f := f) line texts with
    | error e => rfl
    | ok first => exact congrArg Except.ok (List.append_nil _)
  rw [hfront, entries, htexts, Frames.frameEntries_append, hlength]
  rfl

theorem entries_add (line lines : Nat) (file : List α) :
    format.entries (f := f) (line + lines) file =
      (format.entries line file).mapError (·.behind lines) :=
  Frames.frameEntries_add line lines _

omit [DecidableEq α] in
theorem Remarks.whole {file : List α} (h : format.Remarks file) : format.Whole file := by
  induction h with
  | nil => exact .nil
  | cons hline htext hpassed hrest ih => exact ih.line _

theorem Remarks.entries_eq {file : List α} (h : format.Remarks file) (line : Nat) :
    format.entries (f := f) line file = .ok [] := by
  induction h generalizing line with
  | nil => exact entries_nil
  | cons hline htext hpassed hrest ih =>
    rw [entries_line hline, htext, Frames.parseLine_of_passedOver hpassed, ih]
    rfl

end Entries

/-! ## The error that is reported -/

/-- A line of a file, with the lines in front of it and what stands behind it. -/
structure LineAt (format : LineFormat α) (file front line rest : List α) : Prop where
  split : file = front ++ line ++ rest
  front_whole : format.Whole front
  line_notMem : format.newline ∉ line
  rest_head : ∀ x ∈ rest.head?, x = format.newline

omit [DecidableEq α] in
theorem LineAt.behind {file front line rest : List α} (h : format.LineAt file front line rest)
    (first : List α) :
    format.LineAt (first ++ format.newline :: file) (first ++ format.newline :: front) line
      rest where
  split := by rw [h.split, List.append_assoc, List.append_assoc, List.append_assoc]; rfl
  front_whole := h.front_whole.line first
  line_notMem := h.line_notMem
  rest_head := h.rest_head

/-- A line is read before what stands behind it. -/
theorem LineAt.entries_of_fault {file front line rest : List α} {number : Nat}
    {e : FrameFileError} {first : List (FrameAddress f × List Word)}
    (h : format.LineAt file front line rest) (hfront : format.entries number front = .ok first)
    (hfault : Frames.LineFault f (number + front.count format.newline) (format.text line) e) :
    format.entries (f := f) number file = .error e := by
  have hline := Frames.parseLine_eq_error_iff.2 hfault
  rw [h.split, List.append_assoc, entries_append h.front_whole, hfront]
  cases rest with
  | nil =>
    rw [List.append_nil, entries_of_notMem h.line_notMem, hline]
    rfl
  | cons x rest =>
    obtain rfl := h.rest_head x rfl
    rw [entries_line h.line_notMem, hline]
    rfl

/-- **The first line with a fault** is the one that is reported. -/
theorem entries_eq_error_iff {number : Nat} {file : List α} {e : FrameFileError} :
    format.entries (f := f) number file = .error e ↔ ∃ front line rest,
      format.LineAt file front line rest ∧
        (∃ first, format.entries (f := f) number front = .ok first) ∧
        Frames.LineFault f (number + front.count format.newline) (format.text line) e := by
  constructor
  · intro h
    induction file using line_induction format generalizing number with
    | last line hline =>
      refine ⟨[], line, [], ⟨by simp, .nil, hline, nofun⟩, ⟨[], entries_nil⟩, ?_⟩
      rw [entries_of_notMem hline] at h
      cases hparse : Frames.parseLine (f := f) number (format.text line) with
      | error e' =>
        rw [hparse] at h
        obtain rfl := Except.error.inj h
        exact Frames.parseLine_eq_error_iff.1 hparse
      | ok entry =>
        rw [hparse] at h
        cases h
    | cons line rest hline ih =>
      rw [entries_line hline] at h
      rcases bind_eq_error.1 h with h | ⟨entry, hentry, h⟩
      · refine ⟨[], line, format.newline :: rest, ⟨rfl, .nil, hline, ?_⟩, ⟨[], entries_nil⟩,
          Frames.parseLine_eq_error_iff.1 h⟩
        exact fun x hx => (Option.some.inj hx).symm
      rcases bind_eq_error.1 h with h | ⟨later, -, h⟩
      · obtain ⟨front, line', rest', hat, ⟨first, hfirst⟩, hfault⟩ := ih h
        refine ⟨_, line', rest', hat.behind line, ⟨entry.toList ++ first, ?_⟩, ?_⟩
        · rw [entries_line hline, hentry, hfirst]
          rfl
        · rwa [List.count_append, List.count_eq_zero_of_not_mem hline, List.count_cons_self,
            Nat.zero_add, Nat.add_comm _ 1, ← Nat.add_assoc]
      · cases h
  · rintro ⟨front, line, rest, hat, ⟨first, hfirst⟩, hfault⟩
    exact hat.entries_of_fault hfirst hfault

/-! ## The laws of reading -/

section Read
variable {front middle rest file : List α}

theorem read_eq_error_iff {e : FrameFileError} :
    format.read (f := f) file = .error e ↔ format.entries (f := f) 1 file = .error e := by
  rw [read]
  cases format.entries (f := f) 1 file with
  | ok entries => exact ⟨nofun, nofun⟩
  | error e' =>
    constructor <;> intro h <;> exact congrArg Except.error (Except.error.inj h)

theorem read_eq_ok_iff {frames : Frames f} :
    format.read file = .ok frames ↔
      ∃ entries, format.entries 1 file = .ok entries ∧ SortedMap.ofList entries = frames := by
  rw [read]
  cases format.entries (f := f) 1 file with
  | error e => exact ⟨nofun, nofun⟩
  | ok entries =>
    constructor
    · intro h
      exact ⟨entries, rfl, Except.ok.inj h⟩
    · rintro ⟨_, heq, rfl⟩
      rw [Except.ok.inj heq]
      rfl

/-- A line holds one frame or none. -/
theorem read_line_iff {line : List α} {frames : Frames f} (h : format.newline ∉ line) :
    format.read line = .ok frames ↔ ∃ text, format.text line = some text ∧
      (Frames.PassedOver text ∧ frames = SortedMap.empty ∨
        ∃ a words, Frames.LineHolds text a words ∧ frames = SortedMap.empty.insert a words) := by
  have hread : format.read line = .ok frames ↔ ∃ entry,
      Frames.parseLine 1 (format.text line) = .ok entry ∧
        frames = SortedMap.ofList entry.toList := by
    rw [read, entries_of_notMem h]
    cases Frames.parseLine (f := f) 1 (format.text line) with
    | error e => exact ⟨nofun, nofun⟩
    | ok entry =>
      constructor
      · intro heq
        exact ⟨entry, rfl, (Except.ok.inj heq).symm⟩
      · rintro ⟨_, heq, rfl⟩
        rw [Except.ok.inj heq]
        rfl
  rw [hread]
  cases format.text line with
  | none => exact ⟨nofun, nofun⟩
  | some text =>
    simp only [Option.exists, Prod.exists, Frames.parseLine_eq_ok_none_iff,
      Frames.parseLine_eq_ok_some_iff, Option.some.injEq, exists_eq_left']
    rfl

end Read

/-- What a reader of files makes of one line, and of a file in two parts, the first of which is made
of whole lines. -/
structure Composes (format : LineFormat α) (read : List α → Except FrameFileError (Frames f)) :
    Prop where
  /-- A line is passed over, or it holds a frame, or else there is an error. -/
  line_iff {line : List α} {frames : Frames f} (h : format.newline ∉ line) :
    read line = .ok frames ↔ ∃ text, format.text line = some text ∧
      (Frames.PassedOver text ∧ frames = SortedMap.empty ∨
        ∃ a words, Frames.LineHolds text a words ∧ frames = SortedMap.empty.insert a words)
  /-- What is wrong with the first part is reported, whatever follows. -/
  front_error {front : List α} (rest : List α) {e : FrameFileError} (h : format.Whole front)
    (hfront : read front = .error e) : read (front ++ rest) = .error e
  /-- What is wrong with the second part is reported for its line in the whole. -/
  rest_error {front rest : List α} {frames : Frames f} {e : FrameFileError}
    (h : format.Whole front) (hfront : read front = .ok frames) (hrest : read rest = .error e) :
    read (front ++ rest) = .error (e.behind (front.count format.newline))
  /-- The frames of the second part win over those of the first. -/
  both {front rest : List α} {frames later : Frames f} (h : format.Whole front)
    (hfront : read front = .ok frames) (hrest : read rest = .ok later) :
    ∃ both, read (front ++ rest) = .ok both ∧
      ∀ a, both.get? a = (later.get? a).or (frames.get? a)
  /-- Remarks between the parts are counted and not read. -/
  remarks {front middle : List α} (rest : List α) {frames : Frames f} (h : format.Whole front)
    (hmiddle : format.Remarks middle) (hfront : read front = .ok frames) :
    read (front ++ middle ++ rest) =
      match read (front ++ rest) with
      | .ok both => .ok both
      | .error e => .error (e.behind (middle.count format.newline))
  /-- The error is that of the first line with a fault. -/
  error_iff {file : List α} {e : FrameFileError} :
    read file = .error e ↔ ∃ front line rest, format.LineAt file front line rest ∧
      (∃ frames, read front = .ok frames) ∧
      Frames.LineFault f (front.count format.newline + 1) (format.text line) e

theorem composes_read (format : LineFormat α) : format.Composes (format.read (f := f)) where
  line_iff h := read_line_iff h
  front_error rest e h hfront := by
    rw [read_eq_error_iff] at hfront ⊢
    rw [entries_append h, hfront]
    rfl
  rest_error h hfront hrest := by
    obtain ⟨first, hfirst, -⟩ := read_eq_ok_iff.1 hfront
    rw [read_eq_error_iff] at hrest ⊢
    rw [entries_append h, hfirst, entries_add, hrest]
    rfl
  both h hfront hrest := by
    obtain ⟨first, hfirst, rfl⟩ := read_eq_ok_iff.1 hfront
    obtain ⟨second, hsecond, rfl⟩ := read_eq_ok_iff.1 hrest
    refine ⟨SortedMap.ofList (first ++ second), ?_, fun a => ?_⟩
    · rw [read_eq_ok_iff]
      refine ⟨first ++ second, ?_, rfl⟩
      rw [entries_append h, hfirst, entries_add, hsecond]
      rfl
    · rw [SortedMap.ofList_append, SortedMap.get?_union]
  remarks {front middle} rest frames h hmiddle hfront := by
    obtain ⟨first, hfirst, -⟩ := read_eq_ok_iff.1 hfront
    have hskip : ∀ line, format.entries (f := f) line (middle ++ rest) =
        format.entries (line + middle.count format.newline) rest := by
      intro line
      rw [entries_append hmiddle.whole, hmiddle.entries_eq]
      cases format.entries (f := f) (line + middle.count format.newline) rest <;> rfl
    simp only [read]
    rw [List.append_assoc, entries_append h, entries_append h, hfirst, hskip, entries_add]
    cases format.entries (f := f) (1 + front.count format.newline) rest <;> rfl
  error_iff {file e} := by
    rw [read_eq_error_iff, entries_eq_error_iff]
    refine exists_congr fun front => exists_congr fun line => exists_congr fun rest =>
      and_congr_right fun hat => ?_
    rw [Nat.add_comm 1]
    refine and_congr_left fun hfault => ?_
    constructor
    · rintro ⟨first, hfirst⟩
      exact ⟨_, read_eq_ok_iff.2 ⟨first, hfirst, rfl⟩⟩
    · rintro ⟨frames, hframes⟩
      obtain ⟨first, hfirst, -⟩ := read_eq_ok_iff.1 hframes
      exact ⟨first, hfirst⟩

/-- **Frame files are read part by part**, as text and as bytes. -/
theorem composes_ofText_ofBytes (f : Family) :
    characters.Composes (Frames.ofText (f := f)) ∧ bytes.Composes (Frames.ofBytes (f := f)) := by
  rw [ofText_eq_read, ofBytes_eq_read]
  exact ⟨composes_read characters, composes_read bytes⟩

end LineFormat
end FpgaBitstream
