import FpgaBitstream.Proofs.PacketStream

/-!
# What a decoder reads

A run of words begins with a header that announces a payload, with too few words for a header, or
with a header of unknown type (`Packet.opens`).  So it begins with the words of a packet, with words
that are passed over, or with words of which no packet comes (`Packet.begins`): a packet is taken
whatever follows its words, and fewer words are incomplete.  By induction along the decoder
(`Packet.decode_induction`), cutting a run off leaves every packet alone whose last word is still
there, and yields no other (`Packet.decodeAll_take`).

Bytes that are cut off behind the first sync word have an initial part of the packets
(`PacketStream.packets_of_isPrefix`).
-/

namespace FpgaBitstream

variable {f : Family}

namespace Packet

/-! ## How a run of words begins -/

/-- The words of a header, of the given type and opcode, that announces a payload of `count` words
for a register.  Without a register the payload is passed over. -/
structure Announces (previous : Option (Packet f)) (header : List Word) (type : HeaderType)
    (opcode : Opcode) (register : Option (Register f)) (count : Nat) : Prop where
  ne_nil : header ≠ []
  whole (rest : List Word) :
    take previous (header ++ rest) = takePayload type opcode register count rest
  cut (n : Nat) (h : n < header.length) : take previous (header.take n) = .incomplete
  -- what the fields of such a header can hold
  fits : ∀ r, register = some r →
    r.raw.toNat < 2 ^ f.headerLayout.register.width ∨ register = previous.map (·.register)
  plain : type = .type0 → register = some (.crc f) ∧ count = 0
  short : type = .type1 → count ≤ f.maxType1Words
  long : type = .type2 → count < f.longLimit
  inherited : f.hasWideWords → type = .type2 → register = previous.map (·.register)

/-- What stands first in a run of words: a header and what follows it, too few words for a header,
or a header of unknown type. -/
inductive Opens (previous : Option (Packet f)) : List Word → Prop where
  | payload {header : List Word} {type : HeaderType} {opcode : Opcode}
      {register : Option (Register f)} {count : Nat}
      (h : Announces previous header type opcode register count) (rest : List Word) :
    Opens previous (header ++ rest)
  | cut {words : List Word} (h : ∀ n, take previous (words.take n) = .incomplete) :
    Opens previous words
  | unknown {header : Word} (h : ∀ rest, take previous (header :: rest) = .skipped [])
      (rest : List Word) :
    Opens previous (header :: rest)

section Header
variable {previous : Option (Packet f)} {header : Word}

/-- A header of one word is cut off only where nothing is left of it. -/
theorem take_take_singleton {n : Nat} (h : n < [header].length) :
    take previous ([header].take n) = .incomplete := by
  obtain rfl : n = 0 := Nat.lt_one_iff.1 h
  rfl

theorem announces_type0 (h : f.headerLayout.headerType.getNat header = 0) :
    Announces previous [header] .type0 (.ofCode (f.headerLayout.opcode.getNat header))
      (some (.crc f)) 0 where
  ne_nil := List.cons_ne_nil _ _
  whole rest := by simp [take, h, takePayload]
  cut _ := take_take_singleton
  fits := by
    rintro r ⟨⟩
    exact .inl (Nat.two_pow_pos _)
  plain _ := ⟨rfl, rfl⟩
  short := nofun
  long := nofun
  inherited _ := nofun

theorem announces_type1 (h : f.headerLayout.headerType.getNat header = 1) :
    Announces previous [header] .type1 (.ofCode (f.headerLayout.opcode.getNat header))
      (some ⟨f.headerLayout.register.get header⟩) (f.headerLayout.shortCount.getNat header) where
  ne_nil := List.cons_ne_nil _ _
  whole rest := take_type1 rest h
  cut _ := take_take_singleton
  fits := by
    rintro r ⟨⟩
    exact .inl (BitRange.getNat_lt _ _)
  plain := nofun
  short _ := by
    have hlt := f.headerLayout.shortCount.getNat_lt header
    cases f <;> exact Nat.le_of_lt_succ hlt
  long := nofun
  inherited _ := nofun

theorem announces_type2_wide {range : BitRange 32}
    (h : f.headerLayout.headerType.getNat header = 2)
    (hrange : f.headerLayout.longCount = some range) :
    Announces previous [header] .type2 (.ofCode (f.headerLayout.opcode.getNat header))
      (previous.map (·.register)) (range.getNat header) where
  ne_nil := List.cons_ne_nil _ _
  whole rest := take_type2_wide rest h hrange
  cut _ := take_take_singleton
  fits _ _ := .inr rfl
  plain := nofun
  short := nofun
  long _ := by
    have hlt := range.getNat_lt header
    cases f
    case spartan6 => cases hrange
    all_goals
      obtain rfl := Option.some.inj hrange
      exact hlt
  inherited _ _ := rfl

/-- Fewer than three words are no narrow header of type 2. -/
theorem take_type2_short (h : f.headerLayout.headerType.getNat header = 2)
    (hnone : f.headerLayout.longCount = none) {rest : List Word} (hshort : rest.length < 2)
    (n : Nat) : take previous ((header :: rest).take n) = .incomplete := by
  match n, rest, hshort with
  | 0, _, _ => rfl
  | n + 1, [], _ => simp only [List.take_succ_cons, List.take_nil, take, h, hnone]
  | 1, [high], _ => simp only [List.take_succ_cons, List.take_zero, take, h, hnone]
  | n + 2, [high], _ => simp only [List.take_succ_cons, List.take_nil, take, h, hnone]

theorem announces_type2_narrow {high low : Word}
    (h : f.headerLayout.headerType.getNat header = 2) (hnone : f.headerLayout.longCount = none) :
    Announces previous [header, high, low] .type2
      (.ofCode (f.headerLayout.opcode.getNat header))
      (some ⟨f.headerLayout.register.get header⟩)
      (((high &&& 0xFFFF) <<< 16) ||| (low &&& 0xFFFF)).toNat where
  ne_nil := List.cons_ne_nil _ _
  whole rest := take_type2_narrow rest h hnone
  cut n hn := by
    have hshort : [high].length < 2 := Nat.one_lt_two
    have hcut : ([header, high] ++ [low]).take n = [header, high].take n :=
      List.take_append_of_le_length (Nat.le_of_lt_succ hn)
    exact hcut ▸ take_type2_short h hnone hshort n
  fits := by
    rintro r ⟨⟩
    exact .inl (BitRange.getNat_lt _ _)
  plain := nofun
  short := nofun
  long _ := by
    have hlt := (((high &&& 0xFFFF) <<< 16) ||| (low &&& 0xFFFF)).isLt
    cases f
    case spartan6 => exact hlt
    all_goals cases hnone
  inherited hwide := by
    cases f
    case spartan6 => cases hwide
    all_goals cases hnone

end Header

/-- **Every run of words** opens in one of these ways. -/
theorem opens (previous : Option (Packet f)) (words : List Word) : Opens previous words := by
  match words with
  | [] => exact .cut fun n => by rw [List.take_nil]; rfl
  | header :: rest =>
    match h : f.headerLayout.headerType.getNat header with
    | 0 => exact .payload (announces_type0 h) rest
    | 1 => exact .payload (announces_type1 h) rest
    | 2 =>
      cases hlong : f.headerLayout.longCount with
      | some range => exact .payload (announces_type2_wide h hlong) rest
      | none =>
        match rest with
        | high :: low :: rest => exact .payload (announces_type2_narrow h hlong) rest
        | [] => exact .cut (take_type2_short h hlong Nat.two_pos)
        | [high] => exact .cut (take_type2_short h hlong Nat.one_lt_two)
    | type + 3 => exact .unknown (fun rest => by simp only [take, h]) rest

/-! ## What is taken from a run of words -/

/-- The words that are taken up by what is made of them: more may follow, fewer are incomplete. -/
structure Takes (previous : Option (Packet f)) (own : List Word)
    (made : List Word → Taken f) : Prop where
  ne_nil : own ≠ []
  whole (rest : List Word) : take previous (own ++ rest) = made rest
  cut (n : Nat) (h : n < own.length) : take previous (own.take n) = .incomplete

theorem takePayload_of_lt {type : HeaderType} {opcode : Opcode} {register : Option (Register f)}
    {count : Nat} {words : List Word} (h : words.length < count) :
    takePayload type opcode register count words = .incomplete := by
  have hdata : (words.take count).length < count := by
    rw [List.length_take]
    omega
  simp only [takePayload, if_pos hdata]

section Announces
variable {previous : Option (Packet f)} {header data : List Word} {type : HeaderType}
  {opcode : Opcode} {count : Nat}

/-- Fewer words than a header and its payload are incomplete. -/
theorem Announces.cut_append {register : Option (Register f)}
    (h : Announces previous header type opcode register count) (hdata : data.length ≤ count)
    {n : Nat} (hn : n < header.length + count) :
    take previous ((header ++ data).take n) = .incomplete := by
  by_cases hheader : n < header.length
  · rw [List.take_append_of_le_length (Nat.le_of_lt hheader)]
    exact h.cut n hheader
  · obtain ⟨m, rfl⟩ := Nat.exists_eq_add_of_le (Nat.le_of_not_lt hheader)
    rw [List.take_length_add_append, h.whole]
    refine takePayload_of_lt ?_
    rw [List.length_take]
    omega

theorem Announces.takes_packet {register : Register f}
    (h : Announces previous header type opcode (some register) data.length) :
    Takes previous (header ++ data) (.packet ⟨type, opcode, register, data⟩) where
  ne_nil := List.append_ne_nil_of_left_ne_nil h.ne_nil _
  whole rest := by
    rw [List.append_assoc, h.whole, takePayload_append]
  cut n hn := h.cut_append (Nat.le_refl _) (by rwa [List.length_append] at hn)

theorem Announces.takes_skipped
    (h : Announces previous header type opcode none data.length) :
    Takes previous (header ++ data) .skipped where
  ne_nil := List.append_ne_nil_of_left_ne_nil h.ne_nil _
  whole rest := by
    rw [List.append_assoc, h.whole]
    simp [takePayload]
  cut n hn := h.cut_append (Nat.le_refl _) (by rwa [List.length_append] at hn)

end Announces

/-- A run of words of which no packets come, however it is cut off. -/
def Barren (previous : Option (Packet f)) (words : List Word) : Prop :=
  ∀ n, take previous (words.take n) = .incomplete ∨ take previous (words.take n) = .skipped []

theorem Barren.take {previous : Option (Packet f)} {words : List Word}
    (h : Barren previous words) (n : Nat) : Barren previous (words.take n) := by
  intro m
  rw [List.take_take]
  exact h _

/-- How a run of words begins behind a packet: with the words of a packet, with words that make up
none, or with words of which no packets come. -/
inductive Begins (previous : Option (Packet f)) : List Word → Prop where
  | packet {own : List Word} {p : Packet f} (h : Takes previous own (.packet p))
      (rest : List Word) : Begins previous (own ++ rest)
  | passed {own : List Word} (h : Takes previous own .skipped) (rest : List Word) :
    Begins previous (own ++ rest)
  | last {words : List Word} (h : Barren previous words) : Begins previous words

/-- **Every run of words** begins in one of these ways. -/
theorem begins (previous : Option (Packet f)) (words : List Word) : Begins previous words := by
  cases opens previous words with
  | @payload header type opcode register count h rest =>
    by_cases hshort : rest.length < count
    · -- the payload is cut off, and stays so in front of any other cut
      refine .last fun n => .inl ?_
      by_cases hn : n < header.length + count
      · exact h.cut_append (Nat.le_of_lt hshort) hn
      · rw [List.take_of_length_le (by rw [List.length_append]; omega), h.whole]
        exact takePayload_of_lt hshort
    · obtain ⟨data, rest, rfl, rfl⟩ : ∃ data rest', rest = data ++ rest' ∧ data.length = count :=
        ⟨rest.take count, rest.drop count, (List.take_append_drop _ _).symm,
          List.length_take_of_le (Nat.le_of_not_lt hshort)⟩
      rw [← List.append_assoc]
      cases register with
      | some register => exact .packet h.takes_packet rest
      | none => exact .passed h.takes_skipped rest
  | cut h => exact .last fun n => .inl (h n)
  | unknown h rest =>
    refine .last fun n => ?_
    cases n with
    | zero => exact .inl rfl
    | succ n => exact .inr (h _)

/-- **Induction along the decoder**: over the words of a packet, over words that make up none, and
for what is left when no more packets come. -/
theorem decode_induction {motive : Option (Packet f) → List Word → Prop}
    (packet : ∀ previous own p rest, Takes previous own (.packet p) → motive (some p) rest →
      motive previous (own ++ rest))
    (passed : ∀ previous own rest, Takes previous own .skipped → motive previous rest →
      motive previous (own ++ rest))
    (last : ∀ previous words, Barren previous words → motive previous words)
    (previous : Option (Packet f)) (words : List Word) : motive previous words := by
  induction hlength : words.length using Nat.strongRecOn generalizing previous words with
  | ind length ih =>
    subst hlength
    have hshorter {own rest : List Word} (hne : own ≠ []) :
        rest.length < (own ++ rest).length := by
      rw [List.length_append]
      exact Nat.lt_add_of_pos_left (List.length_pos_iff.2 hne)
    cases begins previous words with
    | packet h rest => exact packet _ _ _ _ h (ih _ (hshorter h.ne_nil) _ _ rfl)
    | passed h rest => exact passed _ _ _ h (ih _ (hshorter h.ne_nil) _ _ rfl)
    | last h => exact last _ _ h

/-! ## Packets and their places -/

/-- The packets of a run of words that stands behind a packet. -/
def decodeAfter (previous : Option (Packet f)) (words : List Word) : List (Packet f) :=
  decodeOnto [] previous words

/-- The packets of a run of words that stands behind a packet, each with the number of words up to
its last one, the `start` words in front of the run included. -/
def placesAfter (start : Nat) (previous : Option (Packet f)) (words : List Word) :
    List (Packet f × Nat) :=
  match _ : take previous words with
  | .packet p rest =>
    (p, start + (words.length - rest.length)) ::
      placesAfter (start + (words.length - rest.length)) (some p) rest
  | .skipped rest => placesAfter (start + (words.length - rest.length)) previous rest
  | .incomplete => []
termination_by words.length
decreasing_by all_goals exact take_rest_lt (by rw [‹take previous words = _›]; rfl)

section Decode
variable {previous : Option (Packet f)} {words own rest : List Word} {p : Packet f}

theorem decodeOnto_of_packet (h : take previous words = .packet p rest) (done : List (Packet f)) :
    decodeOnto done previous words = decodeOnto (p :: done) (some p) rest := by
  rw [decodeOnto]
  split <;> simp_all

theorem decodeOnto_of_skipped (h : take previous words = .skipped rest)
    (done : List (Packet f)) : decodeOnto done previous words = decodeOnto done previous rest := by
  rw [decodeOnto]
  split <;> simp_all

theorem decodeOnto_of_incomplete (h : take previous words = .incomplete)
    (done : List (Packet f)) : decodeOnto done previous words = done.reverse := by
  rw [decodeOnto]
  split <;> simp_all

/-- Where no packets come, there are none but those before. -/
theorem Barren.decodeOnto (h : Barren previous words) (done : List (Packet f)) :
    decodeOnto done previous words = done.reverse := by
  have htake := h words.length
  rw [List.take_length] at htake
  rcases htake with htake | htake
  · exact decodeOnto_of_incomplete htake done
  · rw [decodeOnto_of_skipped htake, decodeOnto_of_incomplete rfl]

theorem decodeOnto_eq (done : List (Packet f)) (previous : Option (Packet f))
    (words : List Word) :
    decodeOnto done previous words = done.reverse ++ decodeAfter previous words := by
  induction previous, words using decode_induction generalizing done with
  | packet previous own p rest h ih =>
    rw [decodeAfter, decodeOnto_of_packet (h.whole rest), decodeOnto_of_packet (h.whole rest), ih,
      ih [p], List.reverse_cons, List.append_assoc]
    rfl
  | passed previous own rest h ih =>
    rw [decodeAfter, decodeOnto_of_skipped (h.whole rest), decodeOnto_of_skipped (h.whole rest), ih]
    rfl
  | last previous words h =>
    rw [decodeAfter, h.decodeOnto, h.decodeOnto, List.reverse_nil, List.append_nil]

theorem Takes.decodeAfter_packet (h : Takes previous own (.packet p)) (rest : List Word) :
    decodeAfter previous (own ++ rest) = p :: decodeAfter (some p) rest := by
  rw [decodeAfter, decodeOnto_of_packet (h.whole rest), decodeOnto_eq]
  rfl

theorem Takes.decodeAfter_skipped (h : Takes previous own .skipped) (rest : List Word) :
    decodeAfter previous (own ++ rest) = decodeAfter previous rest :=
  decodeOnto_of_skipped (h.whole rest) []

theorem Barren.decodeAfter (h : Barren previous words) : decodeAfter previous words = [] :=
  h.decodeOnto []

theorem placesAfter_of_packet (h : take previous words = .packet p rest) (start : Nat) :
    placesAfter start previous words = (p, start + (words.length - rest.length)) ::
      placesAfter (start + (words.length - rest.length)) (some p) rest := by
  rw [placesAfter]
  split <;> simp_all

theorem placesAfter_of_skipped (h : take previous words = .skipped rest) (start : Nat) :
    placesAfter start previous words =
      placesAfter (start + (words.length - rest.length)) previous rest := by
  rw [placesAfter]
  split <;> simp_all

theorem placesAfter_of_incomplete (h : take previous words = .incomplete) (start : Nat) :
    placesAfter start previous words = [] := by
  rw [placesAfter]
  split <;> simp_all

theorem Takes.placesAfter_packet (h : Takes previous own (.packet p)) (start : Nat)
    (rest : List Word) :
    placesAfter start previous (own ++ rest) =
      (p, start + own.length) :: placesAfter (start + own.length) (some p) rest := by
  rw [placesAfter_of_packet (h.whole rest), List.length_append, Nat.add_sub_cancel]

theorem Takes.placesAfter_skipped (h : Takes previous own .skipped) (start : Nat)
    (rest : List Word) :
    placesAfter start previous (own ++ rest) =
      placesAfter (start + own.length) previous rest := by
  rw [placesAfter_of_skipped (h.whole rest), List.length_append, Nat.add_sub_cancel]

theorem Barren.placesAfter (h : Barren previous words) (start : Nat) :
    placesAfter start previous words = [] := by
  have htake := h words.length
  rw [List.take_length] at htake
  rcases htake with htake | htake
  · exact placesAfter_of_incomplete htake start
  · rw [placesAfter_of_skipped htake, placesAfter_of_incomplete rfl]

end Decode

/-! ## Cut-off runs of words -/

/-- A run that is cut off within the words that stand first in it has no packets. -/
theorem decodeAfter_take_of_lt {previous : Option (Packet f)} {own rest : List Word} {n : Nat}
    (h : take previous (own.take n) = .incomplete) (hn : n < own.length) :
    decodeAfter previous ((own ++ rest).take n) = [] := by
  rw [List.take_append_of_le_length (Nat.le_of_lt hn)]
  exact decodeOnto_of_incomplete h []

theorem start_lt_of_mem_placesAfter {start : Nat} {previous : Option (Packet f)}
    {words : List Word} {place : Packet f × Nat} (h : place ∈ placesAfter start previous words) :
    start < place.2 := by
  induction previous, words using decode_induction generalizing start with
  | packet previous own p rest hown ih =>
    rw [hown.placesAfter_packet] at h
    rcases List.mem_cons.1 h with rfl | h
    · exact Nat.lt_add_of_pos_right (List.length_pos_iff.2 hown.ne_nil)
    · exact Nat.lt_of_le_of_lt (Nat.le_add_right _ _) (ih h)
  | passed previous own rest hown ih =>
    rw [hown.placesAfter_skipped] at h
    exact Nat.lt_of_le_of_lt (Nat.le_add_right _ _) (ih h)
  | last previous words hlast =>
    rw [hlast.placesAfter] at h
    cases h

/-- Where all places lie behind a cut, none is left. -/
theorem filter_placesAfter_eq_nil {start n : Nat} (h : n < start) (previous : Option (Packet f))
    (words : List Word) :
    (placesAfter start previous words).filter (fun place => place.2 ≤ n) = [] := by
  refine List.filter_eq_nil_iff.2 fun place hmem => ?_
  have hstart := start_lt_of_mem_placesAfter hmem
  simp only [decide_eq_true_eq]
  omega

/-- The packets of a cut-off run are those whose places lie in front of the cut. -/
theorem decodeAfter_take (start n : Nat) (previous : Option (Packet f)) (words : List Word) :
    decodeAfter previous (words.take n) =
      ((placesAfter start previous words).filter fun place => place.2 ≤ start + n).map (·.1) := by
  induction previous, words using decode_induction generalizing start n with
  | packet previous own p rest h ih =>
    rw [h.placesAfter_packet]
    -- the run is cut off within the words of the packet, or what follows them is
    by_cases hn : n < own.length
    · have hbehind : start + n < start + own.length := Nat.add_lt_add_left hn start
      rw [decodeAfter_take_of_lt (h.cut n hn) hn,
        List.filter_cons_of_neg (by simpa using hn), filter_placesAfter_eq_nil hbehind]
      rfl
    · obtain ⟨m, rfl⟩ := Nat.exists_eq_add_of_le (Nat.le_of_not_lt hn)
      rw [List.take_length_add_append, h.decodeAfter_packet, ih (start + own.length) m,
        List.filter_cons_of_pos (by simp), List.map_cons, Nat.add_assoc]
  | passed previous own rest h ih =>
    rw [h.placesAfter_skipped]
    by_cases hn : n < own.length
    · have hbehind : start + n < start + own.length := Nat.add_lt_add_left hn start
      rw [decodeAfter_take_of_lt (h.cut n hn) hn, filter_placesAfter_eq_nil hbehind]
      rfl
    · obtain ⟨m, rfl⟩ := Nat.exists_eq_add_of_le (Nat.le_of_not_lt hn)
      rw [List.take_length_add_append, h.decodeAfter_skipped, ih (start + own.length) m,
        Nat.add_assoc]
  | last previous words h =>
    rw [(h.take n).decodeAfter, h.placesAfter]
    rfl

/-! ## What a place says -/

section Places
variable {start : Nat} {previous : Option (Packet f)} {words : List Word}

theorem map_fst_placesAfter (start : Nat) (previous : Option (Packet f)) (words : List Word) :
    (placesAfter start previous words).map (·.1) = decodeAfter previous words := by
  induction previous, words using decode_induction generalizing start with
  | packet previous own p rest h ih =>
    rw [h.placesAfter_packet, h.decodeAfter_packet, List.map_cons, ih]
  | passed previous own rest h ih => rw [h.placesAfter_skipped, h.decodeAfter_skipped, ih]
  | last previous words h =>
    rw [h.placesAfter, h.decodeAfter]
    rfl

theorem pairwise_placesAfter (start : Nat) (previous : Option (Packet f)) (words : List Word) :
    (placesAfter start previous words).Pairwise fun a b => a.2 < b.2 := by
  induction previous, words using decode_induction generalizing start with
  | packet previous own p rest h ih =>
    rw [h.placesAfter_packet]
    exact .cons (fun place hmem => start_lt_of_mem_placesAfter hmem) (ih _)
  | passed previous own rest h ih =>
    rw [h.placesAfter_skipped]
    exact ih _
  | last previous words h =>
    rw [h.placesAfter]
    exact .nil

/-- The words of a packet are the header that announces it and its data. -/
theorem Takes.exists_header {own : List Word} {p : Packet f} (h : Takes previous own (.packet p)) :
    ∃ header, own = header ++ p.data ∧
      Announces previous header p.header p.opcode (some p.register) p.data.length := by
  have htake : take previous own = .packet p [] := by
    have hwhole := h.whole []
    rwa [List.append_nil] at hwhole
  cases opens previous own with
  | @payload header type opcode register count hheader data =>
    rw [hheader.whole] at htake
    simp only [takePayload] at htake
    split at htake
    · cases htake
    · next hlong =>
      split at htake
      · obtain ⟨rfl, hrest⟩ := Taken.packet.inj htake
        have hdata : data.take count = data :=
          List.take_of_length_le (List.drop_eq_nil_iff.1 hrest)
        have hcount : data.length = count := by
          rw [hdata] at hlong
          exact Nat.le_antisymm (List.drop_eq_nil_iff.1 hrest) (Nat.le_of_not_lt hlong)
        subst hcount
        exact ⟨header, by rw [hdata], by rwa [hdata]⟩
      · cases htake
  | cut hcut =>
    have hnone := hcut own.length
    rw [List.take_length, htake] at hnone
    cases hnone
  | unknown hunknown rest => cases (hunknown rest).symm.trans htake

/-- A packet whose words end at an index of a run: its header and its data stand in front of the
index, fewer words than these make up no packet, and no more of them belong to it. -/
def EndsAt (words : List Word) (p : Packet f) (stop : Nat) : Prop :=
  ∃ previous front header rest, words = front ++ (header ++ p.data) ++ rest ∧
    stop = (front ++ (header ++ p.data)).length ∧ Takes previous (header ++ p.data) (.packet p)

theorem EndsAt.append {p : Packet f} {stop : Nat} (h : EndsAt words p stop) (lead : List Word) :
    EndsAt (lead ++ words) p (lead.length + stop) := by
  obtain ⟨previous, front, header, rest, rfl, rfl, htakes⟩ := h
  exact ⟨previous, lead ++ front, header, rest, by simp only [List.append_assoc],
    by simp only [List.length_append, Nat.add_assoc], htakes⟩

theorem endsAt_of_mem_placesAfter {place : Packet f × Nat}
    (h : place ∈ placesAfter start previous words) :
    ∃ stop, place.2 = start + stop ∧ EndsAt words place.1 stop := by
  induction previous, words using decode_induction generalizing start with
  | packet previous own p rest hown ih =>
    rw [hown.placesAfter_packet] at h
    rcases List.mem_cons.1 h with rfl | h
    · obtain ⟨header, rfl, -⟩ := hown.exists_header
      exact ⟨_, rfl, previous, [], header, rest, rfl, rfl, hown⟩
    · obtain ⟨stop, hstop, hends⟩ := ih h
      exact ⟨own.length + stop, hstop.trans (Nat.add_assoc _ _ _), hends.append own⟩
  | passed previous own rest hown ih =>
    rw [hown.placesAfter_skipped] at h
    obtain ⟨stop, hstop, hends⟩ := ih h
    exact ⟨own.length + stop, hstop.trans (Nat.add_assoc _ _ _), hends.append own⟩
  | last previous words hlast =>
    rw [hlast.placesAfter] at h
    cases h

end Places

/-! ## Runs from their start -/

/-- The packets of a run of words, each with the number of words up to its last one. -/
def places (words : List Word) : List (Packet f × Nat) := placesAfter 0 none words

theorem map_fst_places (words : List Word) :
    (places words).map (·.1) = (decodeAll words : List (Packet f)) :=
  map_fst_placesAfter 0 none words

/-- The places up to a number of words come first. -/
theorem filter_places_isPrefix {places : List (Packet f × Nat)}
    (h : places.Pairwise fun a b => a.2 < b.2) (n : Nat) :
    places.filter (fun place => place.2 ≤ n) <+: places := by
  induction places with
  | nil => exact List.prefix_rfl
  | cons place rest ih =>
    obtain ⟨hfirst, hrest⟩ := List.pairwise_cons.1 h
    by_cases hn : place.2 ≤ n
    · rw [List.filter_cons_of_pos (by simpa using hn)]
      exact (List.prefix_cons_inj place).2 (ih hrest)
    · have hnone : rest.filter (fun other => other.2 ≤ n) = [] := by
        refine List.filter_eq_nil_iff.2 fun other hmem => ?_
        have hlater := hfirst other hmem
        simp only [decide_eq_true_eq]
        omega
      rw [List.filter_cons_of_neg (by simpa using hn), hnone]
      exact List.nil_prefix

theorem endsAt_of_mem_places {words : List Word} {place : Packet f × Nat}
    (h : place ∈ places words) : EndsAt words place.1 place.2 := by
  obtain ⟨stop, hstop, hends⟩ := endsAt_of_mem_placesAfter h
  rw [hstop, Nat.zero_add]
  exact hends

/-- **Cutting a run off** leaves the packets whose last word is still there. -/
theorem decodeAll_take (words : List Word) (n : Nat) :
    (decodeAll (words.take n) : List (Packet f)) =
      ((places words).filter fun place => place.2 ≤ n).map (·.1) := by
  have htake := decodeAfter_take 0 n (none : Option (Packet f)) words
  rwa [Nat.zero_add] at htake

/-- **The packets of a cut-off run** are an initial part of the packets of the run. -/
theorem decodeAll_isPrefix {cut words : List Word} (hcut : cut <+: words) :
    (decodeAll cut : List (Packet f)) <+: decodeAll words := by
  rw [List.prefix_iff_eq_take.1 hcut, decodeAll_take, ← map_fst_places words]
  exact (filter_places_isPrefix (pairwise_placesAfter 0 none words) _).map _

end Packet

/-! ## Bytes that are cut off -/

/-- The first sync word of a run of bytes stands at an index. -/
structure FirstSyncWord (bytes : List UInt8) (i : Nat) : Prop where
  here : syncWord <+: bytes.drop i
  first : ∀ j < i, ¬ syncWord <+: bytes.drop j

instance (bytes : List UInt8) (i : Nat) : Decidable (FirstSyncWord bytes i) :=
  decidable_of_iff (syncWord <+: bytes.drop i ∧ ∀ j < i, ¬ syncWord <+: bytes.drop j)
    ⟨fun h => ⟨h.1, h.2⟩, fun h => ⟨h.here, h.first⟩⟩

theorem exists_firstSyncWord {bytes : List UInt8} {i : Nat} (h : syncWord <+: bytes.drop i) :
    ∃ j, FirstSyncWord bytes j := by
  induction i using Nat.strongRecOn with
  | ind i ih =>
    by_cases hfirst : ∀ j < i, ¬ syncWord <+: bytes.drop j
    · exact ⟨i, h, hfirst⟩
    · obtain ⟨j, hj, hsync⟩ : ∃ j < i, syncWord <+: bytes.drop j := by simpa using hfirst
      exact ih j hj hsync

theorem take_eq_syncWord_iff {bytes : List UInt8} :
    bytes.take syncWord.length = syncWord ↔ syncWord <+: bytes :=
  ⟨fun h => List.prefix_iff_eq_take.2 h.symm, fun h => (List.prefix_iff_eq_take.1 h).symm⟩

/-- **The first sync word** is the one that is found. -/
theorem FirstSyncWord.afterSyncWord? {bytes : List UInt8} {i : Nat} (h : FirstSyncWord bytes i) :
    afterSyncWord? bytes = some (bytes.drop (i + syncWord.length)) := by
  induction bytes generalizing i with
  | nil =>
    have hnil := h.here
    rw [List.drop_nil] at hnil
    cases List.prefix_nil.1 hnil
  | cons byte rest ih =>
    rw [FpgaBitstream.afterSyncWord?]
    cases i with
    | zero =>
      have hsync : (byte :: rest).take syncWord.length = syncWord := take_eq_syncWord_iff.2 h.here
      rw [if_pos hsync, Nat.zero_add]
    | succ i =>
      have hsync : ¬ (byte :: rest).take syncWord.length = syncWord := fun hsync =>
        h.first 0 (Nat.succ_pos i) (take_eq_syncWord_iff.1 hsync)
      have hrest : FirstSyncWord rest i :=
        ⟨h.here, fun j hj => h.first (j + 1) (Nat.succ_lt_succ hj)⟩
      rw [if_neg hsync, ih hrest, Nat.succ_add, List.drop_succ_cons]

theorem afterSyncWord?_eq_none {bytes : List UInt8} (h : ∀ i, ¬ syncWord <+: bytes.drop i) :
    afterSyncWord? bytes = none := by
  induction bytes with
  | nil => rfl
  | cons byte rest ih =>
    have hsync : ¬ (byte :: rest).take syncWord.length = syncWord := fun hsync =>
      h 0 (take_eq_syncWord_iff.1 hsync)
    rw [afterSyncWord?, if_neg hsync]
    exact ih fun i => h (i + 1)

theorem FirstSyncWord.of_isPrefix {cut bytes : List UInt8} {i : Nat} (h : FirstSyncWord bytes i)
    (hcut : cut <+: bytes) (hlength : i + syncWord.length ≤ cut.length) : FirstSyncWord cut i where
  here := by
    refine List.prefix_of_prefix_length_le h.here (hcut.drop i) ?_
    rw [List.length_drop]
    omega
  first j hj hsync := h.first j hj (hsync.trans (hcut.drop j))

namespace PacketStream
variable {cut bytes : List UInt8}

theorem ofBytes?_of_firstSyncWord {i : Nat} (h : FirstSyncWord bytes i) :
    ofBytes? (f := f) bytes = some ⟨f.wordsOfBytes (bytes.drop (i + syncWord.length))⟩ := by
  rw [ofBytes?, h.afterSyncWord?]
  rfl

/-- **Bytes that are cut off behind the first sync word** have an initial part of the packets. -/
theorem packets_of_isPrefix (hcut : cut <+: bytes) {i : Nat} (h : FirstSyncWord bytes i)
    (hlength : i + syncWord.length ≤ cut.length) :
    ∃ stream stream' : PacketStream f, ofBytes? bytes = some stream ∧ ofBytes? cut = some stream' ∧
      stream'.packets <+: stream.packets := by
  refine ⟨_, _, ofBytes?_of_firstSyncWord h,
    ofBytes?_of_firstSyncWord (h.of_isPrefix hcut hlength), ?_⟩
  refine Packet.decodeAll_isPrefix ?_
  exact (BigEndian.toList_isPrefix (hcut.drop _)).map _

/-- Bytes that are cut off in front of the end of the first sync word make up no stream. -/
theorem ofBytes?_of_isPrefix_eq_none (hcut : cut <+: bytes)
    (h : ∀ i, FirstSyncWord bytes i → cut.length < i + syncWord.length) :
    ofBytes? (f := f) cut = none := by
  refine Option.map_eq_none_iff.2 (afterSyncWord?_eq_none fun j hsync => ?_)
  obtain ⟨i, hfirst⟩ := exists_firstSyncWord (hsync.trans (hcut.drop j))
  have hle : i ≤ j := Nat.le_of_not_lt fun hj => hfirst.first j hj (hsync.trans (hcut.drop j))
  have hfits := hsync.length_le
  rw [List.length_drop] at hfits
  have hlength := h i hfirst
  have hpos : 0 < syncWord.length := by decide
  omega

end PacketStream

/-! ## Truncation -/

open Packet PacketStream in
/-- **Truncation yields exactly the complete packets.**  The places of a run of words hold its
packets in order, each with the index behind its last word, and the first `n` words of the run have
the packets whose last word lies among them.  Of the bytes of a stream, a prefix that contains the
first sync word has an initial part of the packets, and any other makes up no stream. -/
theorem complete_packets_of_cut (f : Family) :
    (∀ (words : List Word) (n : Nat),
      (places words).map (·.1) = (decodeAll words : List (Packet f)) ∧
      (places (f := f) words).Pairwise (fun a b => a.2 < b.2) ∧
      (∀ place ∈ places (f := f) words, EndsAt words place.1 place.2) ∧
      (decodeAll (words.take n) : List (Packet f)) =
        ((places words).filter fun place => place.2 ≤ n).map (·.1)) ∧
    ∀ cut bytes : List UInt8, cut <+: bytes →
      ((∃ i, FirstSyncWord bytes i ∧ i + syncWord.length ≤ cut.length) →
        ∃ stream stream' : PacketStream f, ofBytes? bytes = some stream ∧
          ofBytes? cut = some stream' ∧ stream'.packets <+: stream.packets) ∧
      (¬ (∃ i, FirstSyncWord bytes i ∧ i + syncWord.length ≤ cut.length) →
        ofBytes? (f := f) cut = none) := by
  refine ⟨fun words n => ⟨map_fst_places words, pairwise_placesAfter 0 none words,
    fun place hmem => endsAt_of_mem_places hmem, decodeAll_take words n⟩,
    fun cut bytes hcut => ⟨?_, fun h => ?_⟩⟩
  · rintro ⟨i, hfirst, hlength⟩
    exact packets_of_isPrefix hcut hfirst hlength
  · exact ofBytes?_of_isPrefix_eq_none hcut fun i hfirst =>
      Nat.lt_of_not_le fun hlength => h ⟨i, hfirst, hlength⟩

/-- Padding, the sync word, a write of a command, and a write that is cut off. -/
def cutStream : List UInt8 :=
  [0xFF, 0xFF] ++ syncWord ++ [0x30, 0x00, 0x80, 0x01, 0x00, 0x00, 0x00, 0x07] ++
    [0x30, 0x00, 0x80, 0x01, 0x00]

open PacketStream in
theorem complete_packets_of_cut_inPayload :
    ∃ stream stream' : PacketStream .series7,
      ofBytes? (cutStream ++ [0x00, 0x00, 0x0D]) = some stream ∧
        ofBytes? cutStream = some stream' ∧ stream'.packets <+: stream.packets :=
  ((complete_packets_of_cut .series7).2 cutStream (cutStream ++ [0x00, 0x00, 0x0D])
    (List.prefix_append _ _)).1 ⟨2, by decide, by decide⟩

end FpgaBitstream
