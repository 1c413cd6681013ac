import FpgaBitstream.BitHeader
import FpgaBitstream.Proofs.BigEndian

/-!
# File headers come off again

Whatever value stands behind its length is read, and reading goes on behind it
(`parseFields_counted`).  A text field is therefore read back from the bytes it was written to,
provided that its length and the NUL behind it fit two bytes (`parseFields_fieldBytes`).  Behind the
four fields and the length of the data, provided that this fits four bytes, the reader gives the
header and as much as the length announces (`parse_pieces_append`).  Stripping a file that was
written with a header gives the header and the data (`strip_write_eq`), and a file that does not
start like one is left alone.
-/

namespace FpgaBitstream

/-- A text is what its bytes spell. -/
theorem Utf8.decode?_encode (text : String) : Utf8.decode? (Utf8.encode text) = some text := by
  have hbytes : (⟨(Utf8.encode text).toArray⟩ : ByteArray) = text.toByteArray := by
    simp [Utf8.encode]
  rw [Utf8.decode?, hbytes, String.fromUTF8?, dif_pos text.isValidUTF8]
  rfl

/-- Bytes spell a text if and only if they are its bytes. -/
theorem Utf8.decode?_eq_some_iff {bytes : List UInt8} {text : String} :
    Utf8.decode? bytes = some text ↔ bytes = Utf8.encode text := by
  constructor
  · intro h
    rw [Utf8.decode?, String.fromUTF8?] at h
    split at h
    · rw [← Option.some.inj h]
      rfl
    · exact absurd h (Option.some_ne_none _).symm
  · rintro rfl
    exact Utf8.decode?_encode text

namespace BitHeader

/-! ## Lengths -/

/-- A word of two bytes is its high byte and its low byte. -/
theorem exists_encode_two (word : BitVec (8 * 2)) :
    ∃ high low, BigEndian.encode 2 word = [high, low] ∧
      high.toNat * 256 + low.toNat = word.toNat := by
  have hlength := BigEndian.length_encode word
  have hdecode := congrArg BitVec.toNat (BigEndian.decode_encode word)
  match hbytes : BigEndian.encode 2 word with
  | [high, low] =>
    have hhigh := high.toNat_lt
    have hlow := low.toNat_lt
    rw [hbytes, BigEndian.decode, BitVec.toNat_ofNat, List.foldl_cons, List.foldl_cons,
      List.foldl_nil, Nat.zero_mul, Nat.zero_add, Nat.mod_eq_of_lt (by omega)] at hdecode
    exact ⟨high, low, rfl, hdecode⟩
  | [] | [_] | _ :: _ :: _ :: _ => simp [hbytes] at hlength

/-- A word of four bytes is what the bytes spell. -/
theorem exists_encode_four (word : BitVec (8 * 4)) :
    ∃ b₃ b₂ b₁ b₀, BigEndian.encode 4 word = [b₃, b₂, b₁, b₀] ∧
      BigEndian.decode 4 [b₃, b₂, b₁, b₀] = word := by
  have hlength := BigEndian.length_encode word
  have hdecode := BigEndian.decode_encode word
  match hbytes : BigEndian.encode 4 word with
  | [b₃, b₂, b₁, b₀] => exact ⟨b₃, b₂, b₁, b₀, rfl, hbytes ▸ hdecode⟩
  | [] | [_] | [_, _] | [_, _, _] | _ :: _ :: _ :: _ :: _ :: _ => simp [hbytes] at hlength

/-! ## Fields -/

theorem ofTag?_tag (field : Field) : Field.ofTag? field.tag = some field := by
  cases field <;> rfl

theorem stripNul_append (bytes : List UInt8) : stripNul (bytes ++ [0]) = bytes := by
  simp [stripNul]

/-- A value behind the two bytes of its length. -/
def counted (value : List UInt8) : List UInt8 :=
  BigEndian.encode 2 (BitVec.ofNat 16 value.length) ++ value

/-- **One field is read**: the text of its value replaces the one before, and reading goes on behind
the value. -/
theorem parseFields_counted (sofar : BitHeader) (field : Field) {value : List UInt8}
    (hfits : value.length < 2 ^ 16) (rest : List UInt8) :
    parseFields sofar (field.tag :: (counted value ++ rest)) =
      (Utf8.decode? (stripNul value)).elim (.error (.invalidText field.tag))
        fun text => parseFields (sofar.set field text) rest := by
  obtain ⟨high, low, hbytes, hvalue⟩ := exists_encode_two (BitVec.ofNat 16 value.length)
  have hlength : high.toNat * 256 + low.toNat = value.length := by
    rw [hvalue, BitVec.toNat_ofNat, Nat.mod_eq_of_lt hfits]
  have hfield : counted value ++ rest = high :: low :: (value ++ rest) := by
    rw [counted, hbytes]
    rfl
  rw [hfield, parseFields.eq_def]
  simp only [ofTag?_tag, hlength, List.take_left, Nat.lt_irrefl, if_false, List.drop_left]
  cases Utf8.decode? (stripNul value) with
  | some text => rfl
  | none => rfl

theorem fieldBytes_eq (header : BitHeader) (field : Field) :
    header.fieldBytes field =
      field.tag :: counted (Utf8.encode (header.get field) ++ [0]) := by
  simp [fieldBytes, counted]

theorem length_terminated_lt {text : List UInt8} (hfits : text.length ≤ 65534) :
    (text ++ [0]).length < 2 ^ 16 := by
  rw [List.length_append, List.length_singleton]
  omega

/-- **A text field is read back**, and reading goes on behind it. -/
theorem parseFields_fieldBytes (sofar header : BitHeader) (field : Field)
    (hfits : (Utf8.encode (header.get field)).length ≤ 65534) (rest : List UInt8) :
    parseFields sofar (header.fieldBytes field ++ rest) =
      parseFields (sofar.set field (header.get field)) rest := by
  rw [fieldBytes_eq, List.cons_append,
    parseFields_counted sofar field (length_terminated_lt hfits) rest, stripNul_append,
    Utf8.decode?_encode, Option.elim_some]

/-- The data is read from behind its length, as far as it reaches. -/
theorem parseFields_dataTag (header : BitHeader) (length : BitVec (8 * 4)) (rest : List UInt8) :
    parseFields header (dataTag :: (BigEndian.encode 4 length ++ rest)) =
      .ok (header, rest.take length.toNat) := by
  obtain ⟨b₃, b₂, b₁, b₀, hbytes, hvalue⟩ := exists_encode_four length
  have htag : Field.ofTag? dataTag = none := rfl
  rw [hbytes, parseFields.eq_def]
  simp only [htag, List.cons_append, List.nil_append, if_true, hvalue]

/-! ## Files -/

/-- The text fields in the order they are written. -/
def Field.all : List Field := [.designName, .partName, .date, .time]

/-- What a written file has between the preamble and the data, each piece from its tag on: the text
fields, and the tag and the length of the data. -/
def pieces (header : BitHeader) (data : List UInt8) : List (List UInt8) :=
  Field.all.map header.fieldBytes ++
    [dataTag :: BigEndian.encode 4 (BitVec.ofNat 32 data.length)]

theorem write_eq (header : BitHeader) (data : List UInt8) :
    header.write data = preamble ++ ((header.pieces data).flatten ++ data) := by
  simp [write, pieces, Field.all]

theorem parse_preamble_append (bytes : List UInt8) :
    parse (preamble ++ bytes) = parseFields {} bytes := by
  rw [parse, List.take_left, if_pos rfl, List.drop_left]

/-- **Behind its pieces a header is read**, with as many bytes as the data was written with. -/
theorem parse_pieces_append {header : BitHeader} {data : List UInt8}
    (hfields : ∀ field, (Utf8.encode (header.get field)).length ≤ 65534)
    (hdata : data.length < 2 ^ 32) (rest : List UInt8) :
    parse (preamble ++ ((header.pieces data).flatten ++ rest)) =
      .ok (header, rest.take data.length) := by
  have hpieces : (header.pieces data).flatten ++ rest =
      header.fieldBytes .designName ++ (header.fieldBytes .partName ++
        (header.fieldBytes .date ++ (header.fieldBytes .time ++
          dataTag :: (BigEndian.encode 4 (BitVec.ofNat 32 data.length) ++ rest)))) := by
    simp [pieces, Field.all]
  rw [parse_preamble_append, hpieces, parseFields_fieldBytes _ _ _ (hfields _),
    parseFields_fieldBytes _ _ _ (hfields _), parseFields_fieldBytes _ _ _ (hfields _),
    parseFields_fieldBytes _ _ _ (hfields _), parseFields_dataTag, BitVec.toNat_ofNat,
    Nat.mod_eq_of_lt hdata]
  rfl

/-- **A written header comes off again**, and the data behind it is the data written. -/
theorem strip_write_eq {header : BitHeader} {data : List UInt8}
    (hfields : ∀ field, (Utf8.encode (header.get field)).length ≤ 65534)
    (hdata : data.length < 2 ^ 32) : strip (header.write data) = (some header, data) := by
  rw [strip, write_eq, parse_pieces_append hfields hdata, List.take_length]

/-- A file that starts with another byte than a header is all data. -/
theorem strip_cons_of_ne {byte : UInt8} (h : byte ≠ 0) (rest : List UInt8) :
    strip (byte :: rest) = (none, byte :: rest) := by
  have hne : ¬ (byte :: rest).take preamble.length = preamble :=
    fun heq => h (List.cons.inj heq).1
  rw [strip, parse, if_neg hne]

end BitHeader
end FpgaBitstream
