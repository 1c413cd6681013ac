import FpgaBitstream.Proofs.HeaderGrammar

/-!
# Written headers, whole and cut off

A written file is the preamble, five pieces that start with a tag, and the data (`write_eq`).  Cut
off inside the pieces it is a run of text fields and the stop of the piece that the cut falls in
(`exists_stop_of_cut`), so the reader names the tag of that piece, or none where the cut is in front
of it.  Behind the pieces the reader gives the header and what there is of the data, and no more
than was written (`parse_pieces_append`).
-/

namespace FpgaBitstream
namespace BitHeader

/-! ## Cut pieces -/

/-- The tag that a cut after `n` bytes of pieces leaves behind as the last one read: that of the
piece the cut falls in, and zero for a cut in front of a piece. -/
def tagAt : List (List UInt8) → Nat → UInt8
  | [], _ => 0
  | piece :: later, n =>
    if n < piece.length then (if n = 0 then 0 else piece.headD 0)
    else tagAt later (n - piece.length)

variable {header : BitHeader}

/-- A written text field spells the text of the header. -/
theorem spells_fieldBytes_append {field : Field}
    (hfits : (Utf8.encode (header.get field)).length ≤ 65534)
    {entries : List (Field × String)} {front : List UInt8} (h : Spells entries front) :
    Spells ((field, header.get field) :: entries) (header.fieldBytes field ++ front) := by
  rw [fieldBytes_eq]
  exact .cons .terminated (length_terminated_lt hfits) h

/-- A text field that is cut off is a stop. -/
theorem stops_take_fieldBytes {field : Field}
    (hfits : (Utf8.encode (header.get field)).length ≤ 65534) {n : Nat}
    (hn : n < (header.fieldBytes field).length) :
    Stops ((header.fieldBytes field).take n) (.truncated (if n = 0 then 0 else field.tag)) := by
  obtain ⟨value, hvalue⟩ : ∃ value, value = Utf8.encode (header.get field) ++ [0] := ⟨_, rfl⟩
  have hlength : (BitVec.ofNat 16 value.length).toNat = value.length := by
    rw [BitVec.toNat_ofNat, hvalue, Nat.mod_eq_of_lt (length_terminated_lt hfits)]
  rw [fieldBytes_eq, ← hvalue] at hn ⊢
  cases n with
  | zero => exact .atEnd
  | succ n =>
    rw [List.take_succ_cons, if_neg (Nat.succ_ne_zero n)]
    by_cases hshort : n < 2
    · refine .inLength ?_
      rw [List.length_take]
      omega
    · have htake : (counted value).take n =
          BigEndian.encode 2 (BitVec.ofNat 16 value.length) ++ value.take (n - 2) := by
        rw [counted, List.take_append, BigEndian.length_encode, List.take_of_length_le]
        rw [BigEndian.length_encode]
        omega
      rw [htake]
      refine .inValue ?_
      rw [hlength, List.length_take]
      simp only [counted, List.length_cons, List.length_append, BigEndian.length_encode] at hn
      omega

/-- The tag and the length of the data, cut off, are a stop. -/
theorem stops_take_dataLength (length : BitVec (8 * 4)) {n : Nat} (hn : n < 5) :
    Stops ((dataTag :: BigEndian.encode 4 length).take n)
      (.truncated (if n = 0 then 0 else dataTag)) := by
  cases n with
  | zero => exact .atEnd
  | succ n =>
    rw [List.take_succ_cons, if_neg (Nat.succ_ne_zero n)]
    refine .inDataLength ?_
    rw [List.length_take]
    omega

/-- **Pieces that are cut off are a run of text fields and a stop**, which names the tag of the
piece that the cut falls in.  The induction is on the text fields that stand before the cut. -/
theorem exists_stop_of_cut
    (hfields : ∀ field, (Utf8.encode (header.get field)).length ≤ 65534) {fields : List Field}
    {length : BitVec (8 * 4)} {run : List (List UInt8)}
    (hrun : run = fields.map header.fieldBytes ++ [dataTag :: BigEndian.encode 4 length])
    {n : Nat} (hn : n < run.flatten.length) :
    ∃ entries front rest, run.flatten.take n = front ++ rest ∧ Spells entries front ∧
      Stops rest (.truncated (tagAt run n)) := by
  induction fields generalizing run n with
  | nil =>
    subst hrun
    have hdata : n < 5 := by simpa using hn
    refine ⟨[], [], (dataTag :: BigEndian.encode 4 length).take n, by simp, .nil, ?_⟩
    have htag : tagAt [dataTag :: BigEndian.encode 4 length] n = if n = 0 then 0 else dataTag := by
      rw [tagAt, if_pos (by simpa using hdata)]
      rfl
    rw [List.map_nil, List.nil_append, htag]
    exact stops_take_dataLength length hdata
  | cons field fields ih =>
    rw [List.map_cons, List.cons_append] at hrun
    subst hrun
    rw [List.flatten_cons] at hn ⊢
    by_cases hcut : n < (header.fieldBytes field).length
    · refine ⟨[], [], (header.fieldBytes field).take n, ?_, .nil, ?_⟩
      · rw [List.take_append_of_le_length (Nat.le_of_lt hcut), List.nil_append]
      · rw [tagAt, if_pos hcut]
        exact stops_take_fieldBytes (hfields field) hcut
    · have hbehind : n - (header.fieldBytes field).length < (fields.map header.fieldBytes ++
          [dataTag :: BigEndian.encode 4 length]).flatten.length := by
        rw [List.length_append] at hn
        omega
      obtain ⟨entries, front, rest, htake, hspells, hstop⟩ := ih rfl hbehind
      refine ⟨_, header.fieldBytes field ++ front, rest, ?_,
        spells_fieldBytes_append (hfields field) hspells, ?_⟩
      · rw [List.take_append, List.take_of_length_le (Nat.le_of_not_lt hcut), htake,
          List.append_assoc]
      · rw [tagAt, if_neg hcut]
        exact hstop

/-- A cut inside the pieces is told by the tag that it leaves last. -/
theorem parse_pieces_cut
    (hfields : ∀ field, (Utf8.encode (header.get field)).length ≤ 65534) {data : List UInt8}
    {n : Nat} (hn : n < (header.pieces data).flatten.length) :
    parse (preamble ++ (header.pieces data).flatten.take n) =
      .error (.truncated (tagAt (header.pieces data) n)) := by
  have hrun : header.pieces data = Field.all.map header.fieldBytes ++
      [dataTag :: BigEndian.encode 4 (BitVec.ofNat 32 data.length)] := rfl
  obtain ⟨entries, front, rest, htake, hspells, hstop⟩ := exists_stop_of_cut hfields hrun hn
  rw [htake, parse_of_stops hspells hstop]

/-! ## Files -/

/-- **A written header is read back, and one that is cut off tells where.**  Whatever follows a
written file, its header and its data are read.  Cut off inside the preamble, it is no file with a
header; cut off inside the pieces, it is truncated at the tag of the piece that the cut falls in, or
at none in front of a piece; cut off behind them, it gives the header and the data up to the cut. -/
theorem parse_write_cut (header : BitHeader) (data : List UInt8)
    (hfields : ∀ field, (Utf8.encode (header.get field)).length ≤ 65534)
    (hdata : data.length < 2 ^ 32) :
    (∀ trailing, parse (header.write data ++ trailing) = .ok (header, data)) ∧
    header.write data = preamble ++ ((header.pieces data).flatten ++ data) ∧
    ∀ n < (header.write data).length,
      parse ((header.write data).take n) =
        if n < preamble.length then .error .missingPreamble
        else if n < preamble.length + (header.pieces data).flatten.length then
          .error (.truncated (tagAt (header.pieces data) (n - preamble.length)))
        else .ok (header, data.take (n - (preamble.length + (header.pieces data).flatten.length))) := by
  refine ⟨?_, write_eq header data, ?_⟩
  · intro trailing
    rw [write_eq, List.append_assoc, List.append_assoc, parse_pieces_append hfields hdata,
      List.take_left]
  · intro n hn
    by_cases hpreamble : n < preamble.length
    · rw [if_pos hpreamble]
      refine parse_of_not_preamble fun hprefix => ?_
      have hlength := hprefix.length_le
      rw [List.length_take] at hlength
      omega
    have htake : (header.write data).take n =
        preamble ++ ((header.pieces data).flatten ++ data).take (n - preamble.length) := by
      rw [write_eq, List.take_append, List.take_of_length_le (Nat.le_of_not_lt hpreamble)]
    rw [if_neg hpreamble, htake]
    by_cases hpieces : n < preamble.length + (header.pieces data).flatten.length
    · have hcut : n - preamble.length < (header.pieces data).flatten.length := by omega
      rw [if_pos hpieces, List.take_append_of_le_length (Nat.le_of_lt hcut),
        parse_pieces_cut hfields hcut]
    · rw [if_neg hpieces, List.take_append, List.take_of_length_le (by omega),
        parse_pieces_append hfields hdata, List.take_take, ← Nat.sub_sub, Nat.min_eq_right]
      rw [write_eq, List.length_append, List.length_append] at hn
      omega

/-- A header with a design name that ends in a NUL, a date that is the tag of the data, and neither
a part name nor a time. -/
def nulNames : BitHeader := { designName := "ab\x00", date := "e" }

/-- Read behind two bytes of data, and cut off inside the preamble, inside the first text field, in
front of the second, and inside the data. -/
theorem parse_write_cut_nulNames :
    (∀ field, (Utf8.encode (nulNames.get field)).length ≤ 65534) ∧
      parse (nulNames.write [0xAA, 0x99] ++ [0x62]) = .ok (nulNames, [0xAA, 0x99]) ∧
      parse ((nulNames.write [0xAA, 0x99]).take 12) = .error .missingPreamble ∧
      parse ((nulNames.write [0xAA, 0x99]).take 19) = .error (.truncated 0x61) ∧
      parse ((nulNames.write [0xAA, 0x99]).take 20) = .error (.truncated 0) ∧
      parse ((nulNames.write [0xAA, 0x99]).take 39) = .ok (nulNames, [0xAA]) := by
  have hfields : ∀ field, (Utf8.encode (nulNames.get field)).length ≤ 65534 := by
    intro field
    cases field <;> decide +kernel
  obtain ⟨htrailing, -, hcut⟩ := parse_write_cut nulNames [0xAA, 0x99] hfields (by decide)
  have hlength : (nulNames.write [0xAA, 0x99]).length = 40 := by decide +kernel
  rw [hlength] at hcut
  refine ⟨hfields, htrailing [0x62], ?_, ?_, ?_, ?_⟩
  · exact (hcut 12 (by decide)).trans (by decide +kernel)
  · exact (hcut 19 (by decide)).trans (by decide +kernel)
  · exact (hcut 20 (by decide)).trans (by decide +kernel)
  · exact (hcut 39 (by decide)).trans (by decide +kernel)

end BitHeader
end FpgaBitstream
