import FpgaBitstream.Proofs.BitHeader

/-!
# What the header reader accepts

A header is the preamble, any number of text fields in any order, and the data behind its tag and
its length.  `Spells` says which bytes are a run of text fields and which text each of them gives;
`Stops` says at which bytes the reader gives up, and with what error.  Every file that starts
with the preamble is a run of text fields followed by the data or by a stop (`exists_spells`), and
the reader follows the run (`parseFields_of_spells`).  So it accepts exactly the headers and gives
each field the text that stands there last (`parse_grammar`).  Each field takes three bytes at
least, so the reader has taken no more turns than a third of the bytes it has read.
-/

namespace FpgaBitstream
namespace BitHeader

/-! ## Text fields -/

/-- The values that spell a text: its bytes with one NUL behind them, and its bytes alone if they
do not end in one. -/
inductive ValueOf (text : String) : List UInt8 → Prop where
  | terminated : ValueOf text (Utf8.encode text ++ [0])
  | bare (hlast : (Utf8.encode text).getLast? ≠ some 0) : ValueOf text (Utf8.encode text)

/-- The bytes that spell a run of text fields, each with its tag, the length of its value in two
bytes, and its value. -/
inductive Spells : List (Field × String) → List UInt8 → Prop where
  | nil : Spells [] []
  | cons {field : Field} {text : String} {value : List UInt8} {entries : List (Field × String)}
      {front : List UInt8} (hvalue : ValueOf text value) (hfits : value.length < 2 ^ 16)
      (hrest : Spells entries front) :
      Spells ((field, text) :: entries) (field.tag :: (counted value ++ front))

/-- The text that stands last in a run of text fields, for one of the fields. -/
def lastText? (entries : List (Field × String)) (field : Field) : Option String :=
  (entries.reverse.find? fun entry => entry.1 = field).map Prod.snd

/-- What stands where neither a whole text field nor the data can be read, and the error for it: the
end of the file, a tag that is none, a length or a value that is cut off, a value that is no text. -/
inductive Stops : List UInt8 → BitHeaderError → Prop where
  | atEnd : Stops [] (.truncated 0)
  | unknown {tag : UInt8} {rest : List UInt8} (hfield : ∀ field : Field, field.tag ≠ tag)
      (hdata : tag ≠ dataTag) : Stops (tag :: rest) (.unknownTag tag)
  | inLength {field : Field} {rest : List UInt8} (hshort : rest.length < 2) :
      Stops (field.tag :: rest) (.truncated field.tag)
  | inValue {field : Field} {length : BitVec (8 * 2)} {rest : List UInt8}
      (hshort : rest.length < length.toNat) :
      Stops (field.tag :: (BigEndian.encode 2 length ++ rest)) (.truncated field.tag)
  | noText {field : Field} {value rest : List UInt8} (hfits : value.length < 2 ^ 16)
      (hvalue : ∀ text, ¬ ValueOf text value) :
      Stops (field.tag :: (counted value ++ rest)) (.invalidText field.tag)
  | inDataLength {rest : List UInt8} (hshort : rest.length < 4) :
      Stops (dataTag :: rest) (.truncated dataTag)

/-- The header after a run of text fields. -/
def fill (header : BitHeader) (entries : List (Field × String)) : BitHeader :=
  entries.foldl (fun header entry => header.set entry.1 entry.2) header

/-! ### The texts of a header -/

@[simp] theorem get_default (field : Field) : ({} : BitHeader).get field = "" := by
  cases field <;> rfl

theorem get_set (header : BitHeader) (field field' : Field) (text : String) :
    (header.set field text).get field' = if field = field' then text else header.get field' := by
  cases field <;> cases field' <;> rfl

/-- A header is its four texts. -/
theorem eq_of_get {header header' : BitHeader} (h : ∀ field, header.get field = header'.get field) :
    header = header' := by
  have hdesign := h .designName
  have hpart := h .partName
  have hdate := h .date
  have htime := h .time
  cases header
  cases header'
  simp only [get] at hdesign hpart hdate htime
  rw [hdesign, hpart, hdate, htime]

/-- A text field has the text that stands last, or the one from before the run. -/
theorem get_fill (header : BitHeader) (entries : List (Field × String)) (field : Field) :
    (header.fill entries).get field = (lastText? entries field).getD (header.get field) := by
  induction entries generalizing header with
  | nil => rfl
  | cons entry entries ih =>
    have hfill : header.fill (entry :: entries) = (header.set entry.1 entry.2).fill entries := rfl
    rw [hfill, ih, get_set, lastText?, lastText?, List.reverse_cons, List.find?_append]
    cases entries.reverse.find? fun entry => entry.1 = field with
    | some entry' => rfl
    | none =>
      by_cases hfield : entry.1 = field
      · simp [hfield]
      · simp [hfield]

/-! ### The values of a text -/

/-- A value gives a text by losing a NUL at its end if and only if it spells the text. -/
theorem stripNul_eq_iff {value : List UInt8} {text : String} :
    stripNul value = Utf8.encode text ↔ ValueOf text value := by
  constructor
  · intro h
    by_cases hlast : value.getLast? = some 0
    · have hvalue : value = value.dropLast ++ [0] :=
        (List.dropLast_append_getLast? 0 hlast).symm
      rw [stripNul, if_pos hlast] at h
      rw [hvalue, h]
      exact .terminated
    · rw [stripNul, if_neg hlast] at h
      subst h
      exact .bare hlast
  · intro h
    cases h with
    | terminated => exact stripNul_append _
    | bare hlast => rw [stripNul, if_neg hlast]

theorem decode?_stripNul_eq_some_iff {value : List UInt8} {text : String} :
    Utf8.decode? (stripNul value) = some text ↔ ValueOf text value :=
  Utf8.decode?_eq_some_iff.trans stripNul_eq_iff

/-! ## The reader along a run -/

/-- **A run of text fields is read**, and reading goes on behind it. -/
theorem parseFields_of_spells {entries : List (Field × String)} {front : List UInt8}
    (h : Spells entries front) (sofar : BitHeader) (rest : List UInt8) :
    parseFields sofar (front ++ rest) = parseFields (sofar.fill entries) rest := by
  induction h generalizing sofar with
  | nil => rfl
  | @cons field text value entries front hvalue hfits _ ih =>
    rw [List.cons_append, List.append_assoc, parseFields_counted sofar field hfits,
      decode?_stripNul_eq_some_iff.mpr hvalue]
    exact ih (sofar.set field text)

theorem ofTag?_eq_none {tag : UInt8} (h : ∀ field : Field, field.tag ≠ tag) :
    Field.ofTag? tag = none := by
  rw [Field.ofTag?, List.find?_eq_none]
  intro field _
  simpa using h field

/-- **The reader gives up at a stop**, with its error. -/
theorem parseFields_of_stops {bytes : List UInt8} {error : BitHeaderError}
    (h : Stops bytes error) (sofar : BitHeader) : parseFields sofar bytes = .error error := by
  cases h with
  | atEnd => rw [parseFields.eq_def]
  | unknown hfield hdata =>
    rw [parseFields.eq_def]
    simp only [ofTag?_eq_none hfield, if_neg hdata]
  | @inLength field rest hshort =>
    rw [parseFields.eq_def]
    simp only [ofTag?_tag]
    rcases rest with _ | ⟨high, _ | ⟨low, rest⟩⟩
    · rfl
    · rfl
    · simp only [List.length_cons] at hshort
      omega
  | @inValue field length rest hshort =>
    obtain ⟨high, low, hbytes, hvalue⟩ := exists_encode_two length
    have htake : (rest.take length.toNat).length < length.toNat := by
      rw [List.length_take]
      omega
    rw [hbytes, parseFields.eq_def]
    simp only [ofTag?_tag, List.cons_append, List.nil_append, hvalue, if_pos htake]
  | @noText field value rest hfits hvalue =>
    have hnone : Utf8.decode? (stripNul value) = none := by
      rw [Option.eq_none_iff_forall_ne_some]
      intro text htext
      exact hvalue text (decode?_stripNul_eq_some_iff.mp htext)
    rw [parseFields_counted sofar field hfits, hnone, Option.elim_none]
  | @inDataLength rest hshort =>
    have htag : Field.ofTag? dataTag = none := rfl
    rw [parseFields.eq_def]
    simp only [htag, if_true]
    rcases rest with _ | ⟨b₃, _ | ⟨b₂, _ | ⟨b₁, _ | ⟨b₀, rest⟩⟩⟩⟩
    · rfl
    · rfl
    · rfl
    · rfl
    · simp only [List.length_cons] at hshort
      omega

/-! ## Every file is a run and what stands behind it -/

/-- A field takes three bytes at least. -/
theorem three_mul_length_le {entries : List (Field × String)} {front : List UInt8}
    (h : Spells entries front) : 3 * entries.length ≤ front.length := by
  induction h with
  | nil => exact Nat.le_refl _
  | cons _ _ _ ih =>
    simp only [counted, List.length_cons, List.length_append, BigEndian.length_encode]
    omega

/-- What stands behind the tag of a text field: a whole value, or a stop. -/
theorem field_cases (field : Field) (bytes : List UInt8) :
    (∃ text value rest, ValueOf text value ∧ value.length < 2 ^ 16 ∧
        bytes = counted value ++ rest) ∨
      ∃ error, Stops (field.tag :: bytes) error := by
  by_cases hshort : bytes.length < 2
  · exact .inr ⟨_, .inLength hshort⟩
  obtain ⟨length, rest, rfl⟩ := BigEndian.exists_encode_append (Nat.le_of_not_lt hshort)
  by_cases hcut : rest.length < length.toNat
  · exact .inr ⟨_, .inValue hcut⟩
  have hfits := length.isLt
  have htake : (rest.take length.toNat).length = length.toNat :=
    List.length_take_of_le (Nat.le_of_not_lt hcut)
  have hcounted : BigEndian.encode 2 length ++ rest =
      counted (rest.take length.toNat) ++ rest.drop length.toNat := by
    rw [counted, htake, BitVec.ofNat_toNat, BitVec.setWidth_eq, List.append_assoc,
      List.take_append_drop]
  rw [hcounted]
  by_cases htext : ∃ text, ValueOf text (rest.take length.toNat)
  · obtain ⟨text, htext⟩ := htext
    exact .inl ⟨text, _, _, htext, by omega, rfl⟩
  · exact .inr ⟨_, .noText (by omega) (not_exists.mp htext)⟩

/-- What bytes start with: a text field, the tag and the length of the data, or a stop. -/
theorem head_cases (bytes : List UInt8) :
    (∃ field text value rest, ValueOf text value ∧ value.length < 2 ^ 16 ∧
        bytes = Field.tag field :: (counted value ++ rest)) ∨
      (∃ length rest, bytes = dataTag :: (BigEndian.encode 4 length ++ rest)) ∨
      ∃ error, Stops bytes error := by
  cases bytes with
  | nil => exact .inr (.inr ⟨_, .atEnd⟩)
  | cons tag bytes =>
    by_cases hfield : ∃ field : Field, field.tag = tag
    · obtain ⟨field, rfl⟩ := hfield
      rcases field_cases field bytes with ⟨text, value, rest, htext, hfits, rfl⟩ | hstop
      · exact .inl ⟨field, text, value, rest, htext, hfits, rfl⟩
      · exact .inr (.inr hstop)
    by_cases hdata : tag = dataTag
    · subst hdata
      by_cases hshort : bytes.length < 4
      · exact .inr (.inr ⟨_, .inDataLength hshort⟩)
      · obtain ⟨length, rest, rfl⟩ := BigEndian.exists_encode_append (Nat.le_of_not_lt hshort)
        exact .inr (.inl ⟨length, rest, rfl⟩)
    · exact .inr (.inr ⟨_, .unknown (not_exists.mp hfield) hdata⟩)

/-- **Every file is a run of text fields**, followed by the data or by a stop. -/
theorem exists_spells (bytes : List UInt8) :
    ∃ entries front rest, bytes = front ++ rest ∧ Spells entries front ∧
      ((∃ length data, rest = dataTag :: (BigEndian.encode 4 length ++ data)) ∨
        ∃ error, Stops rest error) := by
  induction hlength : bytes.length using Nat.strong_induction_on generalizing bytes with
  | _ length ih =>
    rcases head_cases bytes with ⟨field, text, value, rest, htext, hfits, rfl⟩ | hend
    · have hless : rest.length < length := by
        simp only [List.length_cons, List.length_append] at hlength
        omega
      obtain ⟨entries, front, rest, rfl, hspells, hend⟩ := ih _ hless rest rfl
      refine ⟨(field, text) :: entries, field.tag :: (counted value ++ front), rest, ?_,
        .cons htext hfits hspells, hend⟩
      rw [List.cons_append, List.append_assoc]
    · exact ⟨[], [], bytes, rfl, .nil, hend⟩

/-! ## Files -/

theorem parse_of_not_preamble {bytes : List UInt8} (h : ¬ preamble <+: bytes) :
    parse bytes = .error .missingPreamble := by
  rw [parse, if_neg]
  intro htake
  exact h (List.prefix_iff_eq_take.mpr htake.symm)

/-- A header is read, with the data that its length announces as far as there is any. -/
theorem parse_of_spells {entries : List (Field × String)} {front : List UInt8}
    (h : Spells entries front) (length : BitVec (8 * 4)) (rest : List UInt8) :
    parse (preamble ++ (front ++ dataTag :: (BigEndian.encode 4 length ++ rest))) =
      .ok (fill {} entries, rest.take length.toNat) := by
  rw [parse_preamble_append, parseFields_of_spells h, parseFields_dataTag]

/-- A header with a stop in it is not read. -/
theorem parse_of_stops {entries : List (Field × String)} {front rest : List UInt8}
    {error : BitHeaderError} (h : Spells entries front) (hstop : Stops rest error) :
    parse (preamble ++ (front ++ rest)) = .error error := by
  rw [parse_preamble_append, parseFields_of_spells h, parseFields_of_stops hstop]

theorem get_fill_default (entries : List (Field × String)) (field : Field) :
    (fill {} entries).get field = (lastText? entries field).getD "" := by
  rw [get_fill, get_default]

/-- A file has no preamble, or a run of text fields behind it and the data or a stop behind those. -/
theorem file_cases (bytes : List UInt8) :
    ¬ preamble <+: bytes ∨
      (∃ entries front length rest,
        bytes = preamble ++ (front ++ dataTag :: (BigEndian.encode 4 length ++ rest)) ∧
        Spells entries front) ∨
      ∃ entries front rest error, bytes = preamble ++ (front ++ rest) ∧ Spells entries front ∧
        Stops rest error := by
  by_cases hpreamble : preamble <+: bytes
  · obtain ⟨body, rfl⟩ := hpreamble
    obtain ⟨entries, front, rest, rfl, hspells, ⟨length, data, rfl⟩ | ⟨error, hstop⟩⟩ :=
      exists_spells body
    · exact .inr (.inl ⟨entries, front, length, data, rfl, hspells⟩)
    · exact .inr (.inr ⟨entries, front, rest, error, rfl, hspells, hstop⟩)
  · exact .inl hpreamble

/-- What a file is that is read, and what is read from it. -/
theorem parse_eq_ok_iff {bytes : List UInt8} {header : BitHeader} {data : List UInt8} :
    parse bytes = .ok (header, data) ↔
      ∃ entries front length rest,
        bytes = preamble ++ (front ++ dataTag :: (BigEndian.encode 4 length ++ rest)) ∧
        Spells entries front ∧
        (∀ field, header.get field = (lastText? entries field).getD "") ∧
        data = rest.take (min length.toNat rest.length) := by
  constructor
  · intro hparse
    rcases file_cases bytes with hpreamble | ⟨entries, front, length, rest, rfl, hspells⟩ |
      ⟨entries, front, rest, error, rfl, hspells, hstop⟩
    · rw [parse_of_not_preamble hpreamble] at hparse
      cases hparse
    · rw [parse_of_spells hspells] at hparse
      cases hparse
      exact ⟨entries, front, length, rest, rfl, hspells, get_fill_default entries,
        List.take_eq_take_min⟩
    · rw [parse_of_stops hspells hstop] at hparse
      cases hparse
  · rintro ⟨entries, front, length, rest, rfl, hspells, hheader, rfl⟩
    have hfill : header = fill {} entries :=
      eq_of_get fun field => (hheader field).trans (get_fill_default entries field).symm
    rw [parse_of_spells hspells, hfill, ← List.take_eq_take_min]

/-- What a file is that is not read, and which error it gives. -/
theorem parse_eq_error_iff {bytes : List UInt8} {error : BitHeaderError} :
    parse bytes = .error error ↔
      (¬ preamble <+: bytes ∧ error = .missingPreamble) ∨
        ∃ entries front rest, bytes = preamble ++ (front ++ rest) ∧ Spells entries front ∧
          Stops rest error := by
  constructor
  · intro hparse
    rcases file_cases bytes with hpreamble | ⟨entries, front, length, rest, rfl, hspells⟩ |
      ⟨entries, front, rest, error', rfl, hspells, hstop⟩
    · rw [parse_of_not_preamble hpreamble] at hparse
      exact .inl ⟨hpreamble, (Except.error.inj hparse).symm⟩
    · rw [parse_of_spells hspells] at hparse
      cases hparse
    · rw [parse_of_stops hspells hstop] at hparse
      cases hparse
      exact .inr ⟨entries, front, rest, rfl, hspells, hstop⟩
  · rintro (⟨hpreamble, rfl⟩ | ⟨entries, front, rest, rfl, hspells, hstop⟩)
    · exact parse_of_not_preamble hpreamble
    · exact parse_of_stops hspells hstop

/-- The data of a file is a part of it. -/
theorem data_isInfix_of_parse {bytes : List UInt8} {header : BitHeader} {data : List UInt8}
    (hparse : parse bytes = .ok (header, data)) : data <:+: bytes := by
  obtain ⟨entries, front, length, rest, rfl, -, -, rfl⟩ := parse_eq_ok_iff.mp hparse
  have hsuffix : rest <:+ preamble ++ (front ++ dataTag :: (BigEndian.encode 4 length ++ rest)) :=
    ⟨preamble ++ (front ++ dataTag :: BigEndian.encode 4 length), by simp⟩
  exact (List.take_prefix _ rest).isInfix.trans hsuffix.isInfix

/-- **The reader accepts exactly the headers.**  A file is read if and only if it is the preamble,
a run of text fields, the tag of the data, a length, and the rest; each text field then has the text
that stands last for it, or none, and the data is the rest as far as the length reaches.  Any other
file gives the error of the place where its run of text fields stops.  The reader takes one turn for
each text field of the run, at most a third of the bytes that it has read, and is then at the data
or at a stop.  A file that is not read is left as it is, and the data of one that is read is a part
of it. -/
theorem parse_grammar (bytes : List UInt8) :
    (∀ header data, parse bytes = .ok (header, data) ↔
      ∃ entries front length rest,
        bytes = preamble ++ (front ++ dataTag :: (BigEndian.encode 4 length ++ rest)) ∧
        Spells entries front ∧
        (∀ field, header.get field = (lastText? entries field).getD "") ∧
        data = rest.take (min length.toNat rest.length)) ∧
    (∀ error, parse bytes = .error error ↔
      (¬ preamble <+: bytes ∧ error = .missingPreamble) ∨
        ∃ entries front rest, bytes = preamble ++ (front ++ rest) ∧ Spells entries front ∧
          Stops rest error) ∧
    (preamble <+: bytes →
      ∃ entries front rest, bytes = preamble ++ (front ++ rest) ∧ Spells entries front ∧
        3 * entries.length ≤ front.length ∧
        parse bytes = parseFields (fill {} entries) rest ∧
        ((∃ length data, rest = dataTag :: (BigEndian.encode 4 length ++ data)) ∨
          ∃ error, Stops rest error)) ∧
    (∀ error, parse bytes = .error error → strip bytes = (none, bytes)) ∧
    (∀ header data, parse bytes = .ok (header, data) →
      strip bytes = (some header, data) ∧ data <:+: bytes) := by
  refine ⟨fun _ _ => parse_eq_ok_iff, fun _ => parse_eq_error_iff, ?_, ?_, ?_⟩
  · rintro ⟨body, rfl⟩
    obtain ⟨entries, front, rest, rfl, hspells, hend⟩ := exists_spells body
    refine ⟨entries, front, rest, rfl, hspells, three_mul_length_le hspells, ?_, hend⟩
    rw [parse_preamble_append, parseFields_of_spells hspells]
  · intro error hparse
    rw [strip, hparse]
  · intro header data hparse
    refine ⟨?_, data_isInfix_of_parse hparse⟩
    rw [strip, hparse]

/-- A file whose part name stands twice, whose design name has no NUL behind it, and that announces
nine bytes of data in front of two. -/
def repeatedPartName : List UInt8 :=
  preamble ++ [0x62, 0, 4, 0x6F, 0x6C, 0x64, 0, 0x61, 0, 2, 0xC3, 0xA9, 0x62, 0, 2, 0x78, 0,
    0x65, 0, 0, 0, 9, 0xAA, 0x99]

/-- The part name that stands last is read, and the two bytes of data; cut off in the second part
name, the file is left as it is. -/
theorem parse_grammar_repeatedPartName :
    parse repeatedPartName = .ok ({ designName := "é", partName := "x" }, [0xAA, 0x99]) ∧
      (strip repeatedPartName = (some { designName := "é", partName := "x" }, [0xAA, 0x99]) ∧
        [0xAA, 0x99] <:+: repeatedPartName) ∧
      parse (repeatedPartName.take 28) = .error (.truncated 0x62) ∧
      strip (repeatedPartName.take 28) = (none, repeatedPartName.take 28) := by
  have hold : ValueOf "old" [0x6F, 0x6C, 0x64, 0] := .terminated
  have hdesign : ValueOf "é" [0xC3, 0xA9] := .bare (by decide +kernel)
  have hlast : ValueOf "x" [0x78, 0] := .terminated
  have hfront : Spells [(.partName, "old"), (.designName, "é")]
      [0x62, 0, 4, 0x6F, 0x6C, 0x64, 0, 0x61, 0, 2, 0xC3, 0xA9] :=
    .cons hold (by decide) (.cons hdesign (by decide) .nil)
  have hspells : Spells [(.partName, "old"), (.designName, "é"), (.partName, "x")]
      [0x62, 0, 4, 0x6F, 0x6C, 0x64, 0, 0x61, 0, 2, 0xC3, 0xA9, 0x62, 0, 2, 0x78, 0] :=
    .cons hold (by decide) (.cons hdesign (by decide) (.cons hlast (by decide) .nil))
  have hstop : Stops [0x62, 0, 2] (.truncated 0x62) := @Stops.inValue .partName 2 [] (by decide)
  obtain ⟨hok, -, -, -, hstrip⟩ := parse_grammar repeatedPartName
  obtain ⟨-, herror, -, hleft, -⟩ := parse_grammar (repeatedPartName.take 28)
  have hread := (hok { designName := "é", partName := "x" } [0xAA, 0x99]).mpr
    ⟨_, _, 9, [0xAA, 0x99], by decide, hspells, by intro field; cases field <;> rfl, rfl⟩
  have hcut := (herror (.truncated 0x62)).mpr (.inr ⟨_, _, _, by decide, hfront, hstop⟩)
  exact ⟨hread, hstrip _ _ hread, hcut, hleft _ hcut⟩

end BitHeader
end FpgaBitstream
